import PageEngine.Proofs.Action.Gates
import PageEngine.Proofs.Walk.Adequacy

/-! An invocation on its way to its sender. Elements that do not lead there are passed by, and
what leads there is entered, one spot of the trail after another, as long as the tags on the
way let the walk in. -/

namespace PageEngine

open Walk

/-- The task follows a printed address: an action is invoked, and no form was sent. -/
structure Task.Follows (task : Task) (p : ElementPath) : Prop where
  phase : task.phase = .invokeAction
  sender : task.sender = some p
  formValues : task.request.formValues = []

variable {task : Task} {p : ElementPath} {α β : Type}

namespace Walk

/-- From a state, a computation passes by: it has no result, scope and path stay, and all that
was entered is left. -/
def PassesFrom (x : Walk (Option Answer)) (s : WalkState) : Prop :=
  ∃ s', x.runFrom s = (.ok none, s') ∧ s'.scope = s.scope ∧ s'.path = s.path ∧
    openings s'.journal = openings s.journal

/-- A computation takes nothing back. -/
def Grows (x : Walk α) : Prop :=
  ∀ s : WalkState, s.Extends (x.runFrom s).2

theorem passesFrom_none (s : WalkState) : PassesFrom (pure none) s := ⟨s, rfl, rfl, rfl, rfl⟩

theorem passesFrom_unless_sender {x y : Walk (Option Answer)} {s : WalkState}
    (hs : (task.sender == some s.path) = false) (h : PassesFrom y s) :
    PassesFrom (do if ← isSender task then x else y) s := by
  unfold PassesFrom
  rw [runFrom_bind_ok (runFrom_isSender task s), hs]
  exact h

theorem grows_of_makes {job : Job} {x : Walk (Option Answer)} (h : Makes task job x) : Grows x :=
  fun s => (h s _ _ rfl).extends

/-- What was added by the first part of a sequence stays. -/
theorem extends_runFrom_bind {x : Walk α} {f : α → Walk β} (hf : ∀ a, Grows (f a))
    (s : WalkState) : (x.runFrom s).2.Extends ((x >>= f).runFrom s).2 := by
  rw [runFrom_bind]
  rcases x.runFrom s with ⟨a | e, s'⟩
  · exact .refl s'
  · exact hf _ s'

theorem grows_pure (a : α) : Grows (pure a : Walk α) := fun s => .refl s

theorem grows_bind {x : Walk α} {f : α → Walk β} (hx : Grows x) (hf : ∀ a, Grows (f a)) :
    Grows (x >>= f) :=
  related_runFrom_bind .trans hx hf

theorem grows_record (step : Step) : Grows (record step) := fun _ => .of_step rfl rfl rfl

theorem grows_nextSibling : Grows nextSibling := by
  intro s
  rw [nextSibling, runFrom_bind_ok (runFrom_get s)]
  split
  · exact .of_response_eq (List.suffix_refl _) rfl rfl
  · exact .refl s

theorem grows_leaveBranch : Grows leaveBranch := by
  intro s
  rw [leaveBranch, runFrom_bind_ok (runFrom_get s)]
  split
  · exact .of_response_eq (List.suffix_refl _) rfl rfl
  · exact .refl s

end Walk

/-! ### Passing by -/

namespace Task.Follows

variable {s : WalkState}

theorem sender_beq (htask : task.Follows p) (hpath : ¬s.path.indices <:+ p.indices) :
    (task.sender == some s.path) = false := by
  rw [htask.sender]
  refine beq_eq_false_iff_ne.2 fun heq => hpath ?_
  exact Option.some.inj heq ▸ List.suffix_refl _

/-- Away from the sender a simple tag does nothing by itself. -/
theorem passes_tag (htask : task.Follows p) {t : Tag} (ht : t.isSimple = true)
    (hpath : ¬s.path.indices <:+ p.indices) {expand : Element → Walk (Option Answer)} {site : Site}
    {c : Option Element} {inner : Walk (Option Answer)} (hinner : PassesFrom inner s) :
    PassesFrom (t.visit task expand site c inner) s := by
  have hsender := htask.sender_beq hpath
  cases t with
  | repetition source item index => cases ht
  | switch a bindings => cases ht
  | slot => cases ht
  | popUp b => cases ht
  | component name bindings => cases ht
  | marker describe value => cases ht
  | conditional condition negate =>
    unfold PassesFrom
    rw [Tag.visit, runFrom_bind_ok (Tag.runFrom_isVisible condition negate s)]
    split
    · exact hinner
    · exact passesFrom_none s
  | container name bindings =>
    simp only [Tag.visit, htask.phase]
    exact hinner
  | hyperlink target bindings =>
    simp only [Tag.visit, htask.phase]
    exact passesFrom_unless_sender hsender hinner
  | form action bindings =>
    simp only [Tag.visit, htask.phase, Tag.invokeForm]
    exact passesFrom_unless_sender hsender (passesFrom_none s)
  | actionUrl action =>
    simp only [Tag.visit, htask.phase]
    exact passesFrom_unless_sender hsender (passesFrom_none s)
  | submitButton action value bindings =>
    simp only [Tag.visit, htask.phase, Tag.invokeSubmit]
    unfold PassesFrom
    rw [runFrom_bind_ok (runFrom_pathText s)]
    have hvalue : task.request.hasFormValue s.path.text = false := by
      rw [Request.hasFormValue, htask.formValues]
      rfl
    rw [hvalue]
    exact passesFrom_none s
  | string value whenEmpty escapes =>
    simp only [Tag.visit, htask.phase]
    exact passesFrom_none s
  | void name bindings =>
    simp only [Tag.visit, htask.phase]
    exact passesFrom_none s
  | textField b =>
    simp only [Tag.visit, htask.phase]
    exact passesFrom_none s
  | textArea b =>
    simp only [Tag.visit, htask.phase]
    exact passesFrom_none s

end Task.Follows

namespace Element

variable {expand : Element → Walk (Option Answer)}

theorem passes_entered {e : Element} {x : Walk (Option Answer)} {s : WalkState}
    (h : PassesFrom x (s.entered task e)) :
    PassesFrom (do
      enterElement task e
      let result ← x
      record .leave
      return result) s := by
  obtain ⟨s', hrun, hscope, hpath, hopen⟩ := h
  have henter : (enterElement task e).runFrom s = (.ok (), s.entered task e) := rfl
  unfold PassesFrom
  rw [runFrom_bind_ok henter, runFrom_bind_ok hrun, runFrom_bind_ok (runFrom_record .leave s')]
  exact ⟨_, rfl, hscope, hpath, (congrArg List.tail hopen :)⟩

mutual

/-- An element that does not lead to the sender is passed by. -/
theorem passes_visit (htask : task.Follows p) :
    ∀ e : Element, e.Simple → ∀ s : WalkState, ¬s.path.indices <:+ p.indices →
      PassesFrom (e.visit task expand) s
  | .text shown => by
    intro _ s _
    have hphase : task.phase ≠ .render := by rw [htask.phase]; decide
    unfold PassesFrom
    rw [visit, runFrom_bind_ok (runFrom_enterElement task _ s), if_neg hphase]
    exact ⟨_, rfl, rfl, rfl, rfl⟩
  | .group children => by
    intro he s hpath
    have hbody : ∀ s : WalkState, ¬s.path.indices <:+ p.indices → PassesFrom (do
        enterBranch 0
        let result ← visitAll task expand children
        leaveBranch
        return result) s := by
      intro s hpath
      obtain ⟨s', hrun, hscope, hend, hopen⟩ := passes_visitAll htask children
        (fun e hmem => he.child hmem) s.path 0 { s with path := s.path.enter 0 } rfl
        (by simpa using he.length_le) fun j _ hs => hpath ((ElementPath.suffix_enter ..).trans hs)
      have hleave : s'.path.leave? = some s.path := by rw [hend]; rfl
      unfold PassesFrom
      rw [runFrom_bind_ok (runFrom_enterBranch 0 s), runFrom_bind_ok hrun,
        runFrom_bind_ok (runFrom_leaveBranch hleave)]
      exact ⟨_, rfl, hscope, rfl, hopen⟩
    have hentered := passes_entered (hbody (s.entered task (.group children)) hpath)
    rw [visit]
    simpa only [bind_assoc, pure_bind] using hentered
  | .tag site t content => by
    intro he s hpath
    have hinner : PassesFrom (visitContent task expand content)
        (s.entered task (.tag site t content)) :=
      passes_visitContent htask content (fun e hc => he.content hc) _ hpath
    have haway : ¬(s.entered task (.tag site t content)).path.indices <:+ p.indices := hpath
    exact passes_entered (htask.passes_tag he.tag haway hinner)

theorem passes_visitAll (htask : task.Follows p) :
    ∀ es : List Element, (∀ e ∈ es, e.Simple) → ∀ (path : ElementPath) (i : Nat) (s : WalkState),
      s.path = path.enter (.ofNat i) → i + es.length ≤ ElementPath.maxIndex.toNat →
      (∀ j < es.length, ¬(path.enter (.ofNat (i + j))).indices <:+ p.indices) →
      ∃ s', (visitAll task expand es).runFrom s = (.ok none, s') ∧ s'.scope = s.scope ∧
        s'.path = path.enter (.ofNat (i + es.length)) ∧ openings s'.journal = openings s.journal
  | [] => by
    intro _ path i s hs _ _
    exact ⟨s, rfl, rfl, hs, rfl⟩
  | e :: es => by
    intro hes path i s hs hroom hpath
    rw [List.length_cons] at hroom
    have haway := hpath 0 (Nat.succ_pos _)
    rw [Nat.add_zero, ← hs] at haway
    obtain ⟨s₁, hrun, hscope, hback, hopen⟩ :=
      passes_visit htask e (hes e (List.mem_cons_self ..)) s haway
    have hnext : s₁.path.next? = some (path.enter (.ofNat (i + 1))) := by
      rw [hback, hs]
      exact path.next?_enter_ofNat (by omega)
    obtain ⟨s₂, hrun₂, hscope₂, hpath₂, hopen₂⟩ := passes_visitAll htask es
      (fun e' hmem => hes e' (List.mem_cons_of_mem _ hmem)) path (i + 1)
      { s₁ with path := path.enter (.ofNat (i + 1)) } rfl (by omega) fun j hj => by
        have haway := hpath (j + 1) (Nat.succ_lt_succ hj)
        rwa [Nat.add_left_comm, Nat.add_comm] at haway
    refine ⟨s₂, ?_, hscope₂.trans hscope, ?_, hopen₂.trans hopen⟩
    · rw [visitAll, runFrom_bind_ok hrun]
      dsimp only
      rw [runFrom_bind_ok (runFrom_nextSibling hnext)]
      exact hrun₂
    · rw [hpath₂, List.length_cons, Nat.add_right_comm, Nat.add_assoc]

theorem passes_visitContent (htask : task.Follows p) :
    ∀ c : Option Element, (∀ e, c = some e → e.Simple) → ∀ s : WalkState,
      ¬s.path.indices <:+ p.indices → PassesFrom (visitContent task expand c) s
  | none => fun _ s _ => passesFrom_none s
  | some e => fun he s hpath => passes_visit htask e (he e rfl) s hpath

end

end Element

/-! ### Leading on -/

namespace Tag

/-- A wrapping tag that lets an invocation in visits its content in the same scope. -/
theorem leads_on (htask : task.Follows p) {t : Tag} (ht : t.isSimple = true)
    (hwraps : t.wraps = true) {s : WalkState} (hopens : t.Opens task s.path s.scope)
    (expand : Element → Walk (Option Answer)) (site : Site) (e : Element)
    (inner : Walk (Option Answer)) :
    ∃ s', s'.path = s.path ∧ s'.scope = s.scope ∧ s'.journal = s.journal ∧
      (inner.runFrom s').2.journal =
        ((t.visit task expand site (some e) inner).runFrom s).2.journal := by
  cases t with
  | conditional condition negate =>
    have hshows : s.scope.shows condition negate = true := hopens
    refine ⟨s, rfl, rfl, rfl, ?_⟩
    rw [Tag.visit, runFrom_bind_ok (runFrom_isVisible condition negate s), hshows, if_pos rfl]
  | container name bindings =>
    refine ⟨s, rfl, rfl, rfl, ?_⟩
    simp only [Tag.visit, htask.phase]
  | hyperlink target bindings =>
    have hsender : (task.sender == some s.path) = false :=
      beq_eq_false_iff_ne.2 (hopens htask.phase)
    refine ⟨s, rfl, rfl, rfl, ?_⟩
    simp only [Tag.visit, htask.phase]
    rw [runFrom_bind_ok (runFrom_isSender task s), hsender]
    rfl
  | form action bindings =>
    obtain ⟨hsender, rfl⟩ := hopens htask.phase
    have hbeq : (task.sender == some s.path) = true := beq_iff_eq.2 hsender
    refine ⟨{ s with inForm := true }, rfl, rfl, rfl, ?_⟩
    rcases h : inner.runFrom { s with inForm := true } with ⟨r, s'⟩
    have hform : (inForm inner).runFrom s = (r, { s' with inForm := false }) := by
      rw [inForm, runFrom_bind_ok (runFrom_modify _ s)]
      exact runFrom_settle_of_ok h (runFrom_modify _ s')
    simp only [Tag.visit, htask.phase, invokeForm]
    rw [runFrom_bind_ok (runFrom_isSender task s), hbeq, if_pos rfl]
    dsimp only [Option.isSome]
    rw [if_pos rfl, hform]
  | marker describe value => cases ht
  | _ => cases hwraps

end Tag

namespace Element

variable {expand : Element → Walk (Option Answer)} {e : Element} {s : WalkState}

theorem runFrom_visitAll_append {es rest : List Element} {s s' : WalkState}
    (h : (visitAll task expand es).runFrom s = (.ok none, s')) :
    (visitAll task expand (es ++ rest)).runFrom s = (visitAll task expand rest).runFrom s' := by
  induction es generalizing s with
  | nil =>
    cases h
    rfl
  | cons e es ih =>
    rcases he : (visit task expand e).runFrom s with ⟨r, s₁⟩
    rw [visitAll] at h
    cases r with
    | error err =>
      rw [runFrom_bind_error he] at h
      cases h
    | ok found =>
      rw [runFrom_bind_ok he] at h
      rw [List.cons_append, visitAll, runFrom_bind_ok he]
      cases found with
      | some a => cases h
      | none =>
        dsimp only at h ⊢
        cases hnext : s₁.path.next? with
        | none =>
          rw [runFrom_bind_error (runFrom_nextSibling_error hnext)] at h
          cases h
        | some path =>
          rw [runFrom_bind_ok (runFrom_nextSibling hnext)] at h ⊢
          exact ih h

/-- What is added by a computation between entering and leaving an element stays. -/
theorem extends_entered (e : Element) (x : Walk (Option Answer)) (s : WalkState) :
    (x.runFrom (s.entered task e)).2.Extends (runFrom (do
      enterElement task e
      let result ← x
      record .leave
      return result) s).2 := by
  have henter : (enterElement task e).runFrom s = (.ok (), s.entered task e) := rfl
  rw [runFrom_bind_ok henter]
  exact extends_runFrom_bind (fun _ => grows_bind (grows_record .leave) fun _ => grows_pure _) _

/-- Inside a group an invocation comes to the child that leads to its sender. -/
theorem leads_child (htask : task.Follows p) (hexpand : ∀ e, Makes task (.element e) (expand e))
    {children : List Element} {i : UInt32} (hi : children[i.toNat]? = some e)
    (hs : (Element.group children).Simple) (hpath : (s.path.enter i).indices <:+ p.indices) :
    ∃ s', s'.path = s.path.enter i ∧ s'.scope = s.scope ∧
      openings s'.journal = openings (s.entered task (.group children)).journal ∧
      ((e.visit task expand).runFrom s').2.journal <:+
        (((Element.group children).visit task expand).runFrom s).2.journal := by
  obtain ⟨hlt, hget⟩ := List.getElem?_eq_some_iff.1 hi
  have hsplit : children.take i.toNat ++ e :: children.drop (i.toNat + 1) = children := by
    rw [← hget, ← List.drop_eq_getElem_cons hlt, List.take_append_drop]
  have hlength : (children.take i.toNat).length = i.toNat :=
    List.length_take_of_le (Nat.le_of_lt hlt)
  have hfits := ElementPath.toNat_le_maxIndex i
  -- The children before it stand on other branches, so they are passed by.
  have haway : ∀ j < (children.take i.toNat).length,
      ¬(s.path.enter (.ofNat (0 + j))).indices <:+ p.indices := by
    intro j hj hs
    have hmeet : (s.path.enter (.ofNat (0 + j))).Comparable (s.path.enter i) :=
      List.suffix_or_suffix_of_suffix hs hpath
    have hji := congrArg UInt32.toNat hmeet.index_eq
    rw [ElementPath.toNat_ofNat (by omega)] at hji
    omega
  obtain ⟨s', hrun, hscope, hend, hopen⟩ := @passes_visitAll task p expand htask
    (children.take i.toNat) (fun e' hmem => hs.child (List.mem_of_mem_take hmem)) s.path 0
    { s.entered task (.group children) with path := s.path.enter 0 } rfl (by omega) haway
  rw [Nat.zero_add, hlength, UInt32.ofNat_toNat] at hend
  refine ⟨s', hend, hscope, hopen, ?_⟩
  have hrest : ∀ rest, (visitAll task expand (children.take i.toNat ++ rest)).runFrom _ =
      (visitAll task expand rest).runFrom s' := fun _ => runFrom_visitAll_append hrun
  have hchild : ((e.visit task expand).runFrom s').2.journal <:+
      ((visitAll task expand (e :: children.drop (i.toNat + 1))).runFrom s').2.journal := by
    rw [visitAll]
    refine (extends_runFrom_bind (fun found => ?_) s').journal
    cases found with
    | some a => exact grows_pure _
    | none => exact grows_bind grows_nextSibling fun _ => grows_of_makes (makes_visitAll hexpand _)
  rw [← hrest, hsplit] at hchild
  refine hchild.trans ?_
  rw [visit, runFrom_bind_ok (runFrom_enterElement task _ s), runFrom_bind_ok (runFrom_enterBranch 0 _)]
  have hafter : ∀ result : Option Answer, Grows (do
      leaveBranch
      record .leave
      return result) := fun _ =>
    grows_bind grows_leaveBranch fun _ => grows_bind (grows_record .leave) fun _ => grows_pure _
  exact (extends_runFrom_bind hafter _).journal

/-- Inside a tag that lets it in an invocation comes to the content. -/
theorem leads_content (htask : task.Follows p) {site : Site} {t : Tag}
    (hs : (Element.tag site t (some e)).Simple) (hwraps : t.wraps = true)
    (hopens : t.Opens task s.path s.scope) :
    ∃ s', s'.path = s.path ∧ s'.scope = s.scope ∧
      openings s'.journal = openings (s.entered task (.tag site t (some e))).journal ∧
      ((e.visit task expand).runFrom s').2.journal <:+
        (((Element.tag site t (some e)).visit task expand).runFrom s).2.journal := by
  obtain ⟨s', hpath, hscope, hjournal, hrun⟩ := Tag.leads_on htask hs.tag hwraps
    (s := s.entered task (.tag site t (some e))) hopens expand site e
    (visitContent task expand (some e))
  refine ⟨s', hpath, hscope, congrArg openings hjournal, ?_⟩
  rw [visitContent] at hrun
  rw [hrun]
  exact (extends_entered _ _ s).journal

end Element

end PageEngine
