import PageEngine.Proofs.Page.Journal
import PageEngine.Proofs.Walk.Phases
import PageEngine.Proofs.Walk.Printed

/-! Walks that cannot be told apart. A relation between the states of two walks is a likeness if
related states agree in everything that an element can ask for, and stay related whatever the
element does. Then an element that does the same in both walks comes to the same result. An
address may be under another id in the other walk; everything else that is printed is the same.
The proofs follow the functions of the elements, one lemma for each. -/

namespace PageEngine

open Walk

variable {task : Task} {α β : Type}

namespace WalkState

/-- No event is taken back, and nothing was entered or left. -/
structure Around (s s' : WalkState) : Prop where
  journal : s.journal <:+ s'.journal
  openings : openings s'.journal = openings s.journal

namespace Around

variable {s s' s'' : WalkState}

theorem refl (s : WalkState) : s.Around s := ⟨List.suffix_refl _, rfl⟩

theorem trans (h : s.Around s') (h' : s'.Around s'') : s.Around s'' :=
  ⟨h.journal.trans h'.journal, h'.openings.trans h.openings⟩

theorem of_journal_eq (h : s'.journal = s.journal) : s.Around s' :=
  ⟨h ▸ List.suffix_refl _, h ▸ rfl⟩

theorem of_acts {w : Bool} (h : Acts task w s s') : s.Around s' :=
  ⟨acts_journal h, acts_openings h⟩

end Around

/-- The address of the current element is printed, as something shows it. -/
def printedAddress (shown : String → String) (s : WalkState) : WalkState :=
  { s.identified with
    response := s.response.append (shown (ActionUrl.text ⟨s.id, s.path⟩)) }

end WalkState

/-- Related states agree in what an element can see, and stay related under what it does by
itself. -/
structure Likeness (task : Task) (R : WalkState → WalkState → Prop) : Prop where
  memory : ∀ {s t}, R s t → s.memory.Reachable task.engine ∧ t.memory.Reachable task.engine
  path : ∀ {s t}, R s t → t.path = s.path
  inForm : ∀ {s t}, R s t → t.inForm = s.inForm
  depth : ∀ {s t}, R s t → t.scope.depth = s.scope.depth
  name : ∀ {s t}, R s t → t.scope.current.name = s.scope.current.name
  reads : ∀ {s t}, R s t → ∀ a,
    t.scope.read a t.scope.depth = s.scope.read a s.scope.depth
  printed : ∀ {s t}, R s t → ∀ text,
    R { s with response := s.response.append text } { t with response := t.response.append text }
  addressed : ∀ {s t}, R s t → R (s.printedAddress id) (t.printedAddress id)
  escaped : ∀ {s t}, R s t → ∀ first last,
    R (s.printedAddress fun url => first ++ Html.escape url ++ last)
      (t.printedAddress fun url => first ++ Html.escape url ++ last)
  form : ∀ {s t}, R s t → ∀ inside, R { s with inForm := inside } { t with inForm := inside }
  wrote : ∀ {s t}, R s t → ∀ a v, R (s.wrote [(a, v)]) (t.wrote [(a, v)])
  followed : ∀ {s t}, R s t → ∀ a,
    R { s with journal := .perform a :: s.journal } { t with journal := .perform a :: t.journal }
  performed : task.phase = .invokeAction → ∀ {s t}, R s t → ∀ a,
    (t.scope.invoke a t.scope.depth).1 = (s.scope.invoke a s.scope.depth).1 ∧
      R { s with scope := (s.scope.invoke a s.scope.depth).2 }
        { t with scope := (t.scope.invoke a t.scope.depth).2 }
  loaded : ∀ {s t}, R s t → ∀ name, R { s with memory := s.memory.load task.engine name }
    { t with memory := t.memory.load task.engine name }

theorem Scope.invoke_ne_tooDeep (scope : Scope) (a : Association) (depth : Nat) :
    (scope.invoke a depth).1 ≠ .error .tooDeep := by
  unfold invoke performAt
  split
  · exact fun h => nomatch h
  · exact fun h => nomatch h
  · split
    · exact fun h => nomatch h
    · exact fun h => failsOnly_mapError (p := fun e => e ≠ .tooDeep) (f := .lookup)
        (fun _ h => nomatch h) _ _ h rfl
  · exact fun h => nomatch h
  · exact fun h => nomatch h

/-! ### Computations -/

namespace Walk

/-- Two runs come to the same result and to related states. They are not cut off, and what they
return satisfies a property. -/
structure Meets (R : WalkState → WalkState → Prop) (p : α → Prop) (s t : WalkState)
    (run run' : Except EngineError α × WalkState) : Prop where
  result : run'.1 = run.1
  related : R run.2 run'.2
  around : s.Around run.2
  around' : t.Around run'.2
  uncut : run.1 ≠ .error .tooDeep
  returns : ∀ a, run.1 = .ok a → p a

/-- The runs of a computation from related states meet. -/
def Mirrored (R : WalkState → WalkState → Prop) (p : α → Prop) (x : Walk α) : Prop :=
  ∀ s t, R s t → Meets R p s t (x.runFrom s) (x.runFrom t)

/-- With any result. -/
abbrev Mirrors (R : WalkState → WalkState → Prop) (x : Walk α) : Prop :=
  Mirrored R (fun _ => True) x

section Rules

variable {R : WalkState → WalkState → Prop} {p : α → Prop} {q : β → Prop} {x : Walk α}
  {f : α → Walk β} {s t s' t' : WalkState} {run run' : Except EngineError α × WalkState}

namespace Meets

theorem ok {a : α} (h : R s' t') (hs : s.Around s') (ht : t.Around t') (ha : p a) :
    Meets R p s t (.ok a, s') (.ok a, t') := by
  refine ⟨rfl, h, hs, ht, fun h => (nomatch h), ?_⟩
  rintro b ⟨⟩
  exact ha

theorem error {e : EngineError} (h : R s' t') (hs : s.Around s') (ht : t.Around t')
    (he : e ≠ .tooDeep) : Meets R p s t (.error e, s') (.error e, t') :=
  ⟨rfl, h, hs, ht, fun h => he (Except.error.inj h), fun _ h => nomatch h⟩

/-- The same from earlier states. -/
theorem since (h : Meets R p s' t' run run') (hs : s.Around s') (ht : t.Around t') :
    Meets R p s t run run' :=
  { h with around := hs.trans h.around, around' := ht.trans h.around' }

end Meets

theorem mirrored_bind (hx : Mirrored R p x) (hf : ∀ a, p a → Mirrored R q (f a)) :
    Mirrored R q (x >>= f) := by
  intro s t hst
  have hmeets := hx s t hst
  rcases hs : x.runFrom s with ⟨r, s₁⟩
  rcases ht : x.runFrom t with ⟨r', t₁⟩
  rw [hs, ht] at hmeets
  obtain ⟨hresult, hrelated, haround, haround', huncut, hreturns⟩ := hmeets
  obtain rfl : r' = r := hresult
  cases r' with
  | ok a =>
    rw [runFrom_bind_ok hs, runFrom_bind_ok ht]
    exact (hf a (hreturns a rfl) s₁ t₁ hrelated).since haround haround'
  | error e =>
    rw [runFrom_bind_error hs, runFrom_bind_error ht]
    exact .error hrelated haround haround' fun he => huncut (congrArg Except.error he)

theorem mirrors_bind (hx : Mirrors R x) (hf : ∀ a, Mirrored R q (f a)) :
    Mirrored R q (x >>= f) :=
  mirrored_bind hx fun a _ => hf a

theorem mirrored_pure {a : α} (h : p a) : Mirrored R p (pure a) :=
  fun s t hst => .ok hst (.refl s) (.refl t) h

theorem mirrors_pure (a : α) : Mirrors R (pure a : Walk α) := mirrored_pure trivial

theorem mirrored_throw {e : EngineError} (h : e ≠ .tooDeep) :
    Mirrored R p (throw e : Walk α) :=
  fun s t hst => .error hst (.refl s) (.refl t) h

/-- A computation that reads what both states agree in. -/
theorem mirrors_of_read (h : ∀ s t, R s t → ∃ a, x.runFrom s = (.ok a, s) ∧
    x.runFrom t = (.ok a, t)) : Mirrors R x := by
  intro s t hst
  obtain ⟨a, hs, ht⟩ := h s t hst
  rw [hs, ht]
  exact .ok hst (.refl s) (.refl t) trivial

/-- A computation that only changes the state, in the same way in both walks. -/
theorem mirrors_of_change {x : Walk Unit} {f : WalkState → WalkState}
    (hx : ∀ s, x.runFrom s = (.ok (), f s)) (hf : ∀ s : WalkState, s.Around (f s))
    (h : ∀ s t, R s t → R (f s) (f t)) : Mirrors R x := by
  intro s t hst
  rw [hx s, hx t]
  exact .ok (h s t hst) (hf s) (hf t) trivial

end Rules

end Walk

open Walk

/-- An answer that is a page is a new one, made from a template of the engine. -/
def Answer.IsFresh (engine : Engine) (answer : Option Answer) : Prop :=
  ∀ c, answer = some (.page c) → ∃ name kind t, engine.compile name = .ok t ∧
    c = .ofClass name kind t

namespace Likeness

variable {R : WalkState → WalkState → Prop} (h : Likeness task R)

include h

theorem mirrors_read (a : Association) : Mirrors R (read a) := by
  refine mirrors_of_read fun s t hst => ⟨_, runFrom_read a s, ?_⟩
  rw [runFrom_read, h.reads hst]

theorem mirrors_read? (a : Option Association) : Mirrors R (read? a) := by
  cases a with
  | none => exact mirrors_pure none
  | some a => exact mirrors_bind (h.mirrors_read a) fun _ => mirrors_pure _

theorem mirrors_flag (a : Option Association) : Mirrors R (flag a) :=
  mirrors_bind (h.mirrors_read? a) fun _ => mirrors_pure _

theorem mirrors_attributes (bindings : Associations) : Mirrors R (attributes bindings) := by
  refine mirrors_of_read fun s t hst => ⟨_, runFrom_attributes bindings s, ?_⟩
  rw [runFrom_attributes]
  simp only [h.reads hst]

theorem mirrors_pathText : Mirrors R pathText := by
  refine mirrors_of_read fun s t hst => ⟨_, runFrom_pathText s, ?_⟩
  rw [runFrom_pathText, h.path hst]

theorem mirrors_isSender : Mirrors R (isSender task) := by
  refine mirrors_of_read fun s t hst => ⟨_, runFrom_isSender task s, ?_⟩
  rw [runFrom_isSender, h.path hst]

theorem mirrors_standing : Mirrors R (standing task) := by
  refine mirrors_of_read fun s t hst => ⟨_, rfl, ?_⟩
  have hrun : (standing task).runFrom t = (.ok ⟨task.phase, t.path, t.inForm, t.scope.depth,
    t.scope.current.name, task.sender == some t.path⟩, t) := rfl
  rw [hrun, h.path hst, h.inForm hst, h.depth hst, h.name hst]

theorem mirrors_print (text : String) : Mirrors R (print text) :=
  mirrors_of_change (runFrom_print text) (fun _ => .of_journal_eq rfl) fun _ _ hst =>
    h.printed hst text

theorem mirrors_write (a : Association) (v : Value) : Mirrors R (write a v) :=
  mirrors_of_change (runFrom_write a v) (fun s => .of_acts (WalkState.acts_wrote task s [(a, v)]))
    fun _ _ hst => h.wrote hst a v

theorem mirrors_write? (a : Option Association) (v : Value) : Mirrors R (write? a v) := by
  cases a with
  | none => exact mirrors_pure ()
  | some a => exact h.mirrors_write a v

/-- A template is compiled alike whatever is remembered. -/
theorem mirrored_template (name : String) :
    Mirrored R (fun t => task.engine.compile name = .ok t) (template task name) := by
  intro s t hst
  obtain ⟨hs, ht⟩ := h.memory hst
  have hrun : ∀ s : WalkState, s.memory.Reachable task.engine → (template task name).runFrom s =
      (task.engine.compile name, { s with memory := s.memory.load task.engine name }) := by
    intro s hs
    have hget := hs.fst_get name
    rw [template, runFrom_bind_ok (runFrom_get s)]
    dsimp only
    rw [runFrom_bind_ok (runFrom_modify _ s), hget]
    cases task.engine.compile name <;> rfl
  rw [hrun s hs, hrun t ht]
  exact ⟨rfl, h.loaded hst name, .of_journal_eq rfl, .of_journal_eq rfl,
    task.engine.compile_ne_tooDeep name, fun _ => id⟩

theorem mirrored_instantiate (name : String) (kind : ComponentClass) :
    Mirrored R (fun c => ∃ t, task.engine.compile name = .ok t ∧ c = .ofClass name kind t)
      (instantiate task name kind) :=
  mirrored_bind (h.mirrored_template name) fun t ht => mirrored_pure ⟨t, ht, rfl⟩

theorem mirrored_answer (outcome : Outcome) :
    Mirrored R (Answer.IsFresh task.engine) (answer task outcome) := by
  have hpage : ∀ name kind, Mirrored R (Answer.IsFresh task.engine)
      (do return some (.page (← instantiate task name kind))) := by
    intro name kind
    refine mirrored_bind (h.mirrored_instantiate name kind) fun c hc => mirrored_pure ?_
    obtain ⟨t, ht, rfl⟩ := hc
    rintro d ⟨⟩
    exact ⟨name, kind, t, ht, rfl⟩
  cases outcome with
  | stay => exact mirrored_pure fun _ h => nomatch h
  | pageNamed name => exact mirrored_pure fun _ h => nomatch h
  | page name values =>
    cases values with
    | none => exact hpage name _
    | some values => exact hpage name _
  | respond response => exact mirrored_pure fun _ h => nomatch h

theorem mirrors_perform (hphase : task.phase = .invokeAction) (a : Association) :
    Mirrors R (record (.perform a)) := by
  have hacts : ∀ s : WalkState, Acts task true s { s with journal := .perform a :: s.journal } :=
    fun s => .single (.follow a hphase)
  exact mirrors_of_change (runFrom_record _) (fun s => .of_acts (hacts s)) fun _ _ hst =>
    h.followed hst a

/-- What is performed comes to the same answer. -/
theorem mirrored_invoke (hphase : task.phase = .invokeAction) (a : Association) :
    Mirrored R (Answer.IsFresh task.engine) (invoke task a) := by
  refine mirrors_bind (h.mirrors_perform hphase a) fun _ s t hst => ?_
  obtain ⟨houtcome, hscope⟩ := h.performed hphase hst a
  have hne := s.scope.invoke_ne_tooDeep a s.scope.depth
  rw [runFrom_bind_ok (runFrom_get s), runFrom_bind_ok (runFrom_get t)]
  rcases hs : s.scope.invoke a s.scope.depth with ⟨outcome, scope⟩
  rcases ht : t.scope.invoke a t.scope.depth with ⟨outcome', scope'⟩
  rw [hs, ht] at houtcome hscope
  rw [hs] at hne
  obtain rfl : outcome' = outcome := houtcome
  dsimp only
  rw [runFrom_bind_ok (runFrom_modify _ s), runFrom_bind_ok (runFrom_modify _ t)]
  cases outcome' with
  | ok outcome =>
    exact (h.mirrored_answer outcome _ _ hscope).since (.of_journal_eq rfl) (.of_journal_eq rfl)
  | error e =>
    exact .error hscope (.of_journal_eq rfl) (.of_journal_eq rfl)
      fun he => hne (congrArg Except.error he)

omit h in
theorem mirrors_formValue (name : String) : Mirrors R (formValue task name) := by
  unfold formValue
  split
  · exact mirrors_pure _
  · exact mirrors_pure _
  · exact mirrored_throw (by simp)

theorem mirrors_controlName (name : Option Association) : Mirrors R (controlName name) := by
  refine mirrors_bind (h.mirrors_read? name) fun v => ?_
  split
  · exact mirrors_pure _
  · exact h.mirrors_pathText

/-- A start tag with the address of the element as an attribute. -/
theorem mirrors_startTag (name key : String) (before : Html.Attributes)
    (bindings : Associations) : Mirrors R (do
      let url ← Walk.actionUrl
      print (Html.startTag name (before ++ (key, .text url) :: (← attributes bindings)) false)) :=
    by
  intro s t hst
  obtain ⟨first, last, hstart⟩ := Html.startTag_append_cons name key before
    (bindings.map fun entry => (entry.1, s.scope.read entry.2 s.scope.depth)) false
  have hrun : ∀ u : WalkState,
      (∀ a, u.scope.read a u.scope.depth = s.scope.read a s.scope.depth) → (do
        let url ← Walk.actionUrl
        print (Html.startTag name (before ++ (key, .text url) :: (← attributes bindings)) false)
        : Walk Unit).runFrom u =
      (.ok (), u.printedAddress fun url => first ++ Html.escape url ++ last) := by
    intro u hreads
    have htag := hstart (ActionUrl.text ⟨u.id, u.path⟩)
    simp only [← hreads] at htag
    rw [runFrom_bind_ok (Tag.runFrom_actionUrl_identified u),
      runFrom_bind_ok (runFrom_attributes _ _), runFrom_print]
    exact congrArg (fun text => (Except.ok (), { u.identified with
      response := u.response.append text })) htag
  rw [hrun s fun _ => rfl, hrun t (h.reads hst)]
  exact .ok (h.escaped hst first last) (.of_journal_eq rfl) (.of_journal_eq rfl) trivial

/-! ### Elements without a body -/

theorem mirrors_takeField (b : FieldBindings) : Mirrors R (b.takeValue task) := by
  refine mirrors_bind (h.mirrors_flag _) fun disabled => ?_
  split
  · exact mirrors_pure _
  refine mirrors_bind (h.mirrors_controlName _) fun name => ?_
  refine mirrors_bind (mirrors_formValue name) fun v => ?_
  split
  · exact mirrors_pure _
  · exact h.mirrors_write _ _

theorem mirrors_disabledAttribute (b : FieldBindings) : Mirrors R b.disabledAttribute :=
  mirrors_bind (h.mirrors_flag _) fun _ => mirrors_pure _

theorem mirrors_renderField (b : FieldBindings) : Mirrors R b.renderField := by
  refine mirrors_bind (h.mirrors_controlName _) fun name => ?_
  refine mirrors_bind (h.mirrors_read _) fun v => ?_
  refine mirrors_bind (h.mirrors_disabledAttribute b) fun disabled => ?_
  exact mirrors_bind (h.mirrors_attributes _) fun _ => h.mirrors_print _

theorem mirrors_renderArea (b : FieldBindings) : Mirrors R b.renderArea := by
  refine mirrors_bind (h.mirrors_controlName _) fun name => ?_
  refine mirrors_bind (h.mirrors_disabledAttribute b) fun disabled => ?_
  refine mirrors_bind (h.mirrors_attributes _) fun attributes => ?_
  exact mirrors_bind (h.mirrors_read _) fun _ => h.mirrors_print _

omit h in
theorem mirrors_liftState {x : Except StateError α} : Mirrors R (PopUpBindings.liftState x) := by
  unfold PopUpBindings.liftState
  split
  · exact mirrors_pure _
  · exact mirrored_throw (by simp)

theorem mirrors_takeSelections (b : PopUpBindings) (name : String) :
    Mirrors R (b.takeSelections task name) := by
  unfold PopUpBindings.takeSelections
  split
  · exact mirrors_pure _
  · exact mirrors_pure _
  · refine mirrors_bind (h.mirrors_read _) fun items => ?_
    exact mirrors_bind mirrors_liftState fun _ => h.mirrors_write _ _

theorem mirrors_takeSelection (b : PopUpBindings) (name : String) :
    Mirrors R (b.takeSelection task name) := by
  unfold PopUpBindings.takeSelection
  split
  · exact mirrors_pure _
  refine mirrors_bind (mirrors_formValue name) fun v => ?_
  split
  · exact mirrors_pure _
  · split
    · exact h.mirrors_write _ _
    · refine mirrors_bind (h.mirrors_read _) fun items => ?_
      exact mirrors_bind mirrors_liftState fun _ => h.mirrors_write _ _
  · exact h.mirrors_write _ _

theorem mirrors_takePopUp (b : PopUpBindings) : Mirrors R (b.takeValue task) := by
  refine mirrors_bind (h.mirrors_flag _) fun disabled => ?_
  split
  · exact mirrors_pure _
  refine mirrors_bind (h.mirrors_controlName _) fun name => ?_
  refine mirrors_bind (h.mirrors_flag _) fun multiple => ?_
  split
  · exact h.mirrors_takeSelections b name
  · exact h.mirrors_takeSelection b name

theorem mirrors_isSelected (b : PopUpBindings) (multiple : Bool) (item : Value) :
    Mirrors R (b.isSelected multiple item) := by
  unfold PopUpBindings.isSelected
  split
  · refine mirrors_bind (h.mirrors_read? _) fun v => ?_
    split <;> exact mirrors_pure _
  · refine mirrors_bind (h.mirrors_read? _) fun v => ?_
    split <;> exact mirrors_pure _

theorem mirrors_renderOptions (b : PopUpBindings) (multiple : Bool) (i : Nat)
    (items : List Value) : Mirrors R (b.renderOptions multiple i items) := by
  induction items generalizing i with
  | nil => exact mirrors_pure _
  | cons item rest ih =>
    refine mirrors_bind (h.mirrors_write? _ _) fun _ => ?_
    refine mirrors_bind (h.mirrors_write? _ _) fun _ => ?_
    refine mirrors_bind (h.mirrors_read? _) fun shown => ?_
    refine mirrors_bind (h.mirrors_isSelected b multiple item) fun selected => ?_
    exact mirrors_bind (h.mirrors_print _) fun _ => ih (i + 1)

theorem mirrors_renderPopUp (b : PopUpBindings) : Mirrors R b.render := by
  have hoptions : ∀ multiple, Mirrors R (do
      b.renderOptions multiple 0 (← read b.list).items
      write? b.item .null
      print (Html.endTag "select")) := fun multiple =>
    mirrors_bind (h.mirrors_read _) fun items =>
      mirrors_bind (h.mirrors_renderOptions b multiple 0 _) fun _ =>
        mirrors_bind (h.mirrors_write? _ _) fun _ => h.mirrors_print _
  refine mirrors_bind (h.mirrors_flag _) fun multiple => ?_
  refine mirrors_bind (h.mirrors_controlName _) fun name => ?_
  refine mirrors_bind (h.mirrors_flag _) fun disabled => ?_
  refine mirrors_bind (h.mirrors_attributes _) fun attributes => ?_
  refine mirrors_bind (h.mirrors_print _) fun _ => ?_
  refine mirrors_bind (h.mirrors_read? _) fun label => ?_
  split
  · exact hoptions multiple
  · exact mirrors_bind (h.mirrors_print _) fun _ => hoptions multiple

theorem mirrors_printShown (escapes : Option Association) (shown : Value) :
    Mirrors R (Tag.printShown escapes shown) := by
  unfold Tag.printShown
  split
  · exact mirrors_pure _
  · refine mirrors_bind (h.mirrors_read? _) fun escapes => ?_
    split <;> exact h.mirrors_print _

theorem mirrors_renderString (value : Association) (whenEmpty escapes : Option Association) :
    Mirrors R (Tag.renderString value whenEmpty escapes) := by
  refine mirrors_bind (h.mirrors_read _) fun written => ?_
  split
  · exact mirrors_bind (h.mirrors_read _) fun _ => h.mirrors_printShown _ _
  · exact mirrors_bind (h.mirrors_read _) fun _ => h.mirrors_printShown _ _
  · exact h.mirrors_printShown _ _

theorem mirrors_renderVoid (name : Association) (bindings : Associations) :
    Mirrors R (Tag.renderVoid name bindings) := by
  refine mirrors_bind (h.mirrors_read _) fun v => ?_
  split
  · exact mirrors_pure _
  · exact mirrors_bind (h.mirrors_attributes _) fun _ => h.mirrors_print _

theorem mirrors_renderSubmit (value : Option Association) (bindings : Associations) :
    Mirrors R (Tag.renderSubmit value bindings) := by
  refine mirrors_bind h.mirrors_pathText fun name => ?_
  refine mirrors_bind (h.mirrors_read? _) fun v => ?_
  exact mirrors_bind (h.mirrors_attributes _) fun _ => h.mirrors_print _

omit h in
theorem mirrored_none : Mirrored R (Answer.IsFresh task.engine) (pure none) :=
  mirrored_pure fun _ h => nomatch h

omit h in
theorem mirrored_without {x : Walk Unit} (hx : Mirrors R x) :
    Mirrored R (Answer.IsFresh task.engine) (Tag.without x) :=
  mirrors_bind hx fun _ => mirrored_none

theorem mirrored_invokeSubmit (hphase : task.phase = .invokeAction) (action : Association) :
    Mirrored R (Answer.IsFresh task.engine) (Tag.invokeSubmit task action) := by
  refine mirrors_bind h.mirrors_pathText fun name => ?_
  split
  · exact h.mirrored_invoke hphase action
  · exact mirrored_none

theorem mirrored_followLink (hphase : task.phase = .invokeAction) (target : LinkTarget) :
    Mirrored R (Answer.IsFresh task.engine) (Tag.followLink task target) := by
  cases target with
  | action a => exact h.mirrored_invoke hphase a
  | pageName name =>
    refine mirrors_bind (h.mirrors_perform hphase name) fun _ => ?_
    refine mirrors_bind (h.mirrors_read name) fun v => ?_
    refine mirrored_pure fun c hc => ?_
    cases hshown : v.display? <;> simp [hshown] at hc
  | href url => exact mirrored_none

theorem mirrors_isVisible (condition : Association) (negate : Option Association) :
    Mirrors R (Tag.isVisible condition negate) :=
  mirrors_bind (h.mirrors_read _) fun _ =>
    mirrors_bind (h.mirrors_flag _) fun _ => mirrors_pure _

theorem mirrors_mark (describe : Standing → String) (value : Option Association) :
    Mirrors R (Tag.mark task describe value) := by
  refine mirrors_bind h.mirrors_standing fun standing => ?_
  dsimp only
  split
  · exact h.mirrors_print _
  · exact mirrors_pure _
  · refine mirrors_bind (h.mirrors_read _) fun v => ?_
    split <;> exact h.mirrors_write _ _

/-- The address alone. -/
theorem mirrors_printAddress : Mirrors R (do print (← Walk.actionUrl)) := by
  intro s t hst
  have hrun : ∀ u : WalkState, (do print (← Walk.actionUrl) : Walk Unit).runFrom u =
      (.ok (), u.printedAddress id) := by
    intro u
    rw [runFrom_bind_ok (Tag.runFrom_actionUrl_identified u), runFrom_print]
    rfl
  rw [hrun s, hrun t]
  exact .ok (h.addressed hst) (.of_journal_eq rfl) (.of_journal_eq rfl) trivial

/-- Tags that visit nothing act alike. -/
theorem mirrored_visit {t : Tag} (halone : t.standsAlone = true) {site : Site}
    {c : Option Element} {expand : Element → Walk (Option Answer)} {inner : Walk (Option Answer)} :
    Mirrored R (Answer.IsFresh task.engine) (t.visit task expand site c inner) := by
  cases t with
  | string value whenEmpty escapes =>
    simp only [Tag.visit]
    split
    · exact mirrored_without (h.mirrors_renderString _ _ _)
    · exact mirrored_none
  | void name bindings =>
    simp only [Tag.visit]
    split
    · exact mirrored_without (h.mirrors_renderVoid _ _)
    · exact mirrored_none
  | submitButton action value bindings =>
    simp only [Tag.visit]
    split
    · exact mirrored_none
    · rename_i hphase
      exact h.mirrored_invokeSubmit hphase action
    · exact mirrored_without (h.mirrors_renderSubmit _ _)
  | textField b =>
    simp only [Tag.visit]
    split
    · exact mirrored_without (h.mirrors_takeField b)
    · exact mirrored_none
    · exact mirrored_without (h.mirrors_renderField b)
  | textArea b =>
    simp only [Tag.visit]
    split
    · exact mirrored_without (h.mirrors_takeField b)
    · exact mirrored_none
    · exact mirrored_without (h.mirrors_renderArea b)
  | popUp b =>
    simp only [Tag.visit]
    split
    · exact mirrored_without (h.mirrors_takePopUp b)
    · exact mirrored_none
    · exact mirrored_without (h.mirrors_renderPopUp b)
  | actionUrl action =>
    simp only [Tag.visit]
    split
    · exact mirrored_none
    · rename_i hphase
      refine mirrors_bind h.mirrors_isSender fun sender => ?_
      split
      · exact h.mirrored_invoke hphase action
      · exact mirrored_none
    · exact mirrored_without h.mirrors_printAddress
  | _ => cases halone

end Likeness

end PageEngine
