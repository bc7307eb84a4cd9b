import PageEngine.Proofs.Page.Bounded

/-! A page that a walk answers with is a new one, made from a template of the engine. Answers are
made where an action is performed, and all that is around it hands them on. -/

namespace PageEngine

variable {α β : Type} {engine : Engine} {task : Task} {p : α → Prop} {q : β → Prop}

namespace Walk

/-- From a memory of the engine a computation leads to another one, and what it returns satisfies a
property. -/
def Yields (engine : Engine) (p : α → Prop) (x : Walk α) : Prop :=
  ∀ s, s.memory.Reachable engine → (x.runFrom s).2.memory.Reachable engine ∧
    ∀ a, (x.runFrom s).1 = .ok a → p a

section Rules

variable {x : Walk α} {f : α → Walk β}

theorem yields_bind (hx : Yields engine p x) (hf : ∀ a, p a → Yields engine q (f a)) :
    Yields engine q (x >>= f) := by
  intro s hs
  obtain ⟨hmemory, hreturns⟩ := hx s hs
  rw [runFrom_bind]
  rcases h : x.runFrom s with ⟨r, s'⟩
  rw [h] at hmemory hreturns
  cases r with
  | ok a => exact hf a (hreturns a rfl) s' hmemory
  | error e => exact ⟨hmemory, fun _ h => nomatch h⟩

theorem yields_pure {a : α} (h : p a) : Yields engine p (pure a) := by
  refine fun s hs => ⟨hs, ?_⟩
  rintro b ⟨⟩
  exact h

theorem yields_of_memory (h : ∀ s, (x.runFrom s).2.memory = s.memory) :
    Yields engine (fun _ => True) x :=
  fun s hs => ⟨h s ▸ hs, fun _ _ => trivial⟩

/-- Before `f` anything may happen that keeps the memory. -/
theorem yields_after (h : ∀ s, (x.runFrom s).2.memory = s.memory)
    (hf : ∀ a, Yields engine q (f a)) : Yields engine q (x >>= f) :=
  yields_bind (yields_of_memory h) fun a _ => hf a

/-- Two runs from one state are alike, so that what is known of both is known of one. -/
theorem yields_of_mirrored {x : Walk α}
    (h : Mirrored (WalkState.Beside (Memory.Same engine)) p x) : Yields engine p x := by
  intro s hs
  have hmeets := h s s ⟨s.memory, rfl, rfl, hs⟩
  obtain ⟨N, -, -, hreachable⟩ := hmeets.related
  exact ⟨hreachable, hmeets.returns⟩

theorem memory_liftScope (f : Scope → Except StateError Scope) (s : WalkState) :
    ((liftScope f).runFrom s).2.memory = s.memory := by
  rw [liftScope, runFrom_bind_ok (runFrom_get s)]
  cases f s.scope <;> rfl

theorem memory_leaveBranch (s : WalkState) : (leaveBranch.runFrom s).2.memory = s.memory := by
  rw [leaveBranch, runFrom_bind_ok (runFrom_get s)]
  cases s.path.leave? <;> rfl

theorem memory_nextSibling (s : WalkState) : (nextSibling.runFrom s).2.memory = s.memory := by
  rw [nextSibling, runFrom_bind_ok (runFrom_get s)]
  cases s.path.next? <;> rfl

theorem yields_settle {after : Walk Unit} (hx : Yields engine p x)
    (ha : ∀ s, (after.runFrom s).2.memory = s.memory) : Yields engine p (settle x after) := by
  intro s hs
  obtain ⟨hmemory, hreturns⟩ := hx s hs
  rw [runFrom_settle]
  rcases h : x.runFrom s with ⟨r, s'⟩
  rw [h] at hmemory hreturns
  have hafter := ha s'
  rcases h' : after.runFrom s' with ⟨r', s''⟩
  rw [h'] at hafter
  have hend : s''.memory.Reachable engine := by rwa [show s''.memory = s'.memory from hafter]
  dsimp only
  rw [h']
  cases r' with
  | ok _ => exact ⟨hend, hreturns⟩
  | error e => exact ⟨hend, fun _ h => nomatch h⟩

end Rules

theorem likeness_same (task : Task) :
    Likeness task (WalkState.Beside (Memory.Same task.engine)) :=
  likeness_beside (Memory.relates_same task.engine)

/-- The answers of a computation are new pages. -/
abbrev AnswersFresh (engine : Engine) (x : Walk (Option Answer)) : Prop :=
  Yields engine (Answer.IsFresh engine) x

theorem answersFresh_none : AnswersFresh engine (pure none) :=
  yields_pure fun _ h => nomatch h

/-! ### Components -/

variable {expand : Element → Walk (Option Answer)}

theorem answersFresh_inComponent (hexpand : ∀ e, AnswersFresh task.engine (expand e))
    (reference : Reference) : AnswersFresh task.engine (inComponent task expand reference) := by
  have hentered : ∀ t : Template, AnswersFresh task.engine (visitEntered expand t) := by
    intro t
    refine yields_after (fun _ => rfl) fun s => ?_
    refine yields_after (fun _ => rfl) fun _ => ?_
    refine yields_after (memory_liftScope _) fun _ => ?_
    refine yields_bind (hexpand _) fun a ha => ?_
    refine yields_after (fun _ => rfl) fun s => ?_
    split
    · refine yields_after (fun _ => rfl) fun s => ?_
      refine yields_after (fun _ => rfl) fun _ => ?_
      exact yields_after (memory_liftScope _) fun _ => yields_pure ha
    · exact yields_pure ha
  have hplaced : Yields task.engine (fun _ => True) (placed task reference) := by
    refine yields_after (fun _ => rfl) fun s => ?_
    refine yields_after (fun _ => rfl) fun text => ?_
    refine yields_after (fun _ => rfl) fun _ => ?_
    refine yields_after (fun _ => rfl) fun _ => ?_
    split
    · exact yields_pure trivial
    · exact yields_bind (yields_of_mirrored ((likeness_same task).mirrored_instantiate _ _))
        fun _ _ => yields_pure trivial
  refine yields_after (fun _ => rfl) fun key => ?_
  refine yields_bind hplaced fun c _ => ?_
  refine yields_after (fun _ => rfl) fun _ => ?_
  refine yields_bind (yields_settle (hentered _) (memory_liftScope _)) fun a ha => ?_
  exact yields_after (fun _ => rfl) fun _ => yields_pure ha

theorem answersFresh_inCaller (hexpand : ∀ e, AnswersFresh engine (expand e)) :
    AnswersFresh engine (inCaller expand) := by
  refine yields_after (fun _ => rfl) fun s => ?_
  dsimp only
  split
  · exact answersFresh_none
  · split
    · exact answersFresh_none
    · refine yields_after (memory_liftScope _) fun _ => ?_
      exact yields_settle (hexpand _) (memory_liftScope _)

theorem yields_switchIndex (site : Site) (name : String) :
    Yields engine (fun _ => True) (switchIndex site name) := by
  intro s hs
  rw [switchIndex, runFrom_bind_ok (runFrom_get s)]
  dsimp only
  split
  · exact ⟨.number site name hs, fun _ _ => trivial⟩
  · refine ⟨hs, fun _ h => ?_⟩
    cases h

theorem answersFresh_inSwitch (hexpand : ∀ e, AnswersFresh task.engine (expand e)) (site : Site)
    (a : Association) (bindings : Associations) (content : Option Element) :
    AnswersFresh task.engine (inSwitch task expand site a bindings content) := by
  refine yields_after (fun _ => rfl) fun v => ?_
  split
  · exact answersFresh_none
  · rename_i name _
    refine yields_bind (yields_switchIndex site name) fun index _ => ?_
    refine yields_after (fun _ => rfl) fun _ => ?_
    exact yields_settle (answersFresh_inComponent hexpand _) memory_leaveBranch

end Walk

open Walk

/-! ### Tags -/

namespace Tag

variable {expand : Element → Walk (Option Answer)} {inner : Walk (Option Answer)}

theorem memory_write? (a : Option Association) (v : Value) (s : WalkState) :
    ((write? a v).runFrom s).2.memory = s.memory := by
  cases a with
  | none => rfl
  | some a =>
    rw [write?, write, runFrom_bind_ok (runFrom_get s), runFrom_bind_ok (runFrom_record _ s)]
    exact memory_liftScope _ _

theorem answersFresh_repeatItems (hinner : AnswersFresh engine inner)
    (item index : Option Association) (items : List Value) (i : Nat) :
    AnswersFresh engine (repeatItems item index inner i items) := by
  induction items generalizing i with
  | nil => exact answersFresh_none
  | cons v rest ih =>
    have hturn : AnswersFresh engine (turn item index inner i v) :=
      yields_after (memory_write? index _) fun _ => yields_after (memory_write? item v) fun _ =>
        hinner
    refine yields_bind hturn fun a ha => ?_
    split
    · exact yields_pure ha
    · exact yields_after memory_nextSibling fun _ => ih (i + 1)

theorem answersFresh_repeated (hinner : AnswersFresh engine inner) (source : RepetitionSource)
    (item index : Option Association) :
    AnswersFresh engine (repeated source item index inner) := by
  have hturns : AnswersFresh engine (turns source item index inner) := by
    unfold turns
    split
    · refine yields_after (fun _ => rfl) fun v => ?_
      refine yields_after (fun _ => rfl) fun _ => ?_
      exact answersFresh_repeatItems hinner item index _ 0
    · refine yields_after (fun _ => rfl) fun v => ?_
      refine yields_after (fun _ => rfl) fun _ => ?_
      rw [repeatTimes_eq]
      exact answersFresh_repeatItems hinner none index _ 0
  refine yields_bind hturns fun a ha => ?_
  refine yields_after memory_leaveBranch fun _ => ?_
  split
  · exact yields_after (memory_write? item .null) fun _ => yields_pure ha
  · exact yields_pure ha

theorem answersFresh_inForm (hinner : AnswersFresh engine inner) :
    AnswersFresh engine (inForm inner) :=
  yields_after (fun _ => rfl) fun _ => yields_settle hinner fun _ => rfl

/-- What is printed around the content leaves its answer as it is. -/
theorem answersFresh_printed (first last : String) (hinner : AnswersFresh engine inner) :
    AnswersFresh engine (do
      print first
      let result ← inner
      print last
      return result) :=
  yields_after (fun _ => rfl) fun _ => yields_bind hinner fun _ ha =>
    yields_after (fun _ => rfl) fun _ => yields_pure ha

theorem memory_actionUrl (s : WalkState) : (Walk.actionUrl.runFrom s).2.memory = s.memory := by
  rw [runFrom_actionUrl_identified]
  rfl

theorem answersFresh_renderHyperlink (hinner : AnswersFresh engine inner) (target : LinkTarget)
    (bindings : Associations) : AnswersFresh engine (renderHyperlink target bindings inner) := by
  have hprinted : ∀ href : Value, AnswersFresh engine (do
      print (Html.startTag "a" (("href", href) :: (← attributes bindings)) false)
      let result ← inner
      print (Html.endTag "a")
      return result) := fun href =>
    yields_after (fun _ => rfl) fun _ => answersFresh_printed _ _ hinner
  cases target with
  | href url => exact yields_after (fun _ => rfl) hprinted
  | _ =>
    simp only [renderHyperlink, pure_bind]
    exact yields_after memory_actionUrl fun _ => hprinted _

theorem answersFresh_renderForm (hinner : AnswersFresh engine inner) (bindings : Associations) :
    AnswersFresh engine (renderForm bindings inner) := by
  refine yields_after memory_actionUrl fun url => ?_
  exact yields_after (fun _ => rfl) fun _ => answersFresh_printed _ _ (answersFresh_inForm hinner)

/-- No tag answers with a page that was there before. -/
theorem answersFresh_visit (hexpand : ∀ e, AnswersFresh task.engine (expand e))
    (hinner : AnswersFresh task.engine inner) (t : Tag) (site : Site) (c : Option Element) :
    AnswersFresh task.engine (t.visit task expand site c inner) := by
  have hlike := likeness_same task
  by_cases halone : t.standsAlone = true
  · exact yields_of_mirrored (hlike.mirrored_visit halone)
  cases t with
  | conditional condition negate =>
    refine yields_bind (yields_of_mirrored (hlike.mirrors_isVisible condition negate)) ?_
    intro visible _
    split
    · exact hinner
    · exact answersFresh_none
  | repetition source item index => exact answersFresh_repeated hinner source item index
  | switch a bindings => exact answersFresh_inSwitch hexpand site a bindings c
  | slot => exact answersFresh_inCaller hexpand
  | container name bindings =>
    simp only [Tag.visit]
    split
    · refine yields_after (fun _ => rfl) fun v => ?_
      split
      · exact hinner
      · exact yields_after (fun _ => rfl) fun _ => answersFresh_printed _ _ hinner
    · exact hinner
  | hyperlink target bindings =>
    simp only [Tag.visit]
    split
    · exact hinner
    · rename_i hphase
      refine yields_after (fun _ => rfl) fun sender => ?_
      split
      · exact yields_of_mirrored (hlike.mirrored_followLink hphase target)
      · exact hinner
    · exact answersFresh_renderHyperlink hinner target bindings
  | form action bindings =>
    simp only [Tag.visit]
    split
    · split
      · exact answersFresh_inForm hinner
      · exact answersFresh_none
    · rename_i hphase
      refine yields_after (fun _ => rfl) fun sender => ?_
      split
      · split
        · exact yields_of_mirrored (hlike.mirrored_invoke hphase _)
        · split
          · exact answersFresh_inForm hinner
          · exact answersFresh_none
      · exact answersFresh_none
    · exact answersFresh_renderForm hinner bindings
  | component name bindings => exact answersFresh_inComponent hexpand _
  | marker describe value =>
    exact yields_bind (yields_of_mirrored (hlike.mirrors_mark describe value)) fun _ _ => hinner
  | _ => exact absurd rfl halone

end Tag

/-! ### Elements -/

namespace Element

section Visit

variable {expand : Element → Walk (Option Answer)}

mutual

theorem answersFresh_visit (hexpand : ∀ e, AnswersFresh task.engine (expand e)) :
    ∀ e : Element, AnswersFresh task.engine (e.visit task expand)
  | .text shown => by
    rw [visit]
    refine yields_after (fun _ => rfl) fun _ => ?_
    split
    · refine yields_after (fun _ => rfl) fun _ => ?_
      exact yields_after (fun _ => rfl) fun _ => answersFresh_none
    · exact yields_after (fun _ => rfl) fun _ => answersFresh_none
  | .group children => by
    rw [visit]
    refine yields_after (fun _ => rfl) fun _ => ?_
    refine yields_after (fun _ => rfl) fun _ => ?_
    refine yields_bind (answersFresh_visitAll hexpand children) fun a ha => ?_
    refine yields_after memory_leaveBranch fun _ => ?_
    exact yields_after (fun _ => rfl) fun _ => yields_pure ha
  | .tag site t content => by
    rw [visit]
    refine yields_after (fun _ => rfl) fun _ => ?_
    have hcontent := answersFresh_visitContent hexpand content
    refine yields_bind (t.answersFresh_visit hexpand hcontent site content) fun a ha => ?_
    exact yields_after (fun _ => rfl) fun _ => yields_pure ha

theorem answersFresh_visitAll (hexpand : ∀ e, AnswersFresh task.engine (expand e)) :
    ∀ es : List Element, AnswersFresh task.engine (visitAll task expand es)
  | [] => answersFresh_none
  | e :: es => by
    rw [visitAll]
    refine yields_bind (answersFresh_visit hexpand e) fun a ha => ?_
    split
    · exact yields_pure ha
    · exact yields_after memory_nextSibling fun _ => answersFresh_visitAll hexpand es

theorem answersFresh_visitContent (hexpand : ∀ e, AnswersFresh task.engine (expand e)) :
    ∀ c : Option Element, AnswersFresh task.engine (visitContent task expand c)
  | none => answersFresh_none
  | some e => answersFresh_visit hexpand e

end

theorem answersFresh_visitWithin (limit : Nat) (e : Element) :
    AnswersFresh task.engine (visitWithin task limit e) := by
  induction limit generalizing e with
  | zero => exact fun s hs => ⟨hs, fun _ h => nomatch h⟩
  | succ limit ih => exact answersFresh_visit ih e

end Visit

end Element

/-- A page in the answer of a walk is a new one. -/
theorem Walk.answersFresh_wholePage (task : Task) (limit : Nat) :
    AnswersFresh task.engine (wholePage task limit) :=
  yields_after (fun _ => rfl) fun _ =>
    yields_after (fun _ => rfl) fun _ => Element.answersFresh_visitWithin limit _

end PageEngine
