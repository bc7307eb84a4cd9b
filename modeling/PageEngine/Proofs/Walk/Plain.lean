import PageEngine.Proofs.Walk.Lawful

/-! What the elements do by themselves, apart from printing addresses. Reading, writing,
printing and performing fail with no internal error; they take no context id, enter nothing
that prints an address, and add to the content. -/

namespace PageEngine

open Walk

variable {task : Task} {α β : Type}

/-! ### Addresses -/

/-- Whether an element prints the address where it stands. -/
def Element.isAddressed : Element → Bool
  | .tag _ (.hyperlink (.action _) _) _ => true
  | .tag _ (.hyperlink (.pageName _) _) _ => true
  | .tag _ (.form ..) _ => true
  | .tag _ (.actionUrl _) _ => true
  | _ => false

/-- The path of an element that is entered to print its address. -/
def Step.address? : Step → Option ElementPath
  | .enter e standing _ =>
    if standing.phase = .render ∧ e.isAddressed then some standing.path else none
  | _ => none

/-- The paths of the elements that print their addresses, in the order of entering. -/
def addresses (journal : List Step) : List ElementPath :=
  (journal.filterMap Step.address?).reverse

theorem addresses_cons_of_none {step : Step} (h : step.address? = none) (journal : List Step) :
    addresses (step :: journal) = addresses journal := by
  rw [addresses, List.filterMap_cons_none h, addresses]

theorem addresses_cons_of_some {step : Step} {path : ElementPath} (h : step.address? = some path)
    (journal : List Step) : addresses (step :: journal) = addresses journal ++ [path] := by
  rw [addresses, List.filterMap_cons_some h, List.reverse_cons, addresses]

/-! ### States -/

namespace WalkState

/-- A state that a walk of an engine can be in: what it remembers was compiled, and its id is
the last one that was given out. -/
structure Sound (engine : Engine) (s : WalkState) : Prop where
  memory : s.memory.Reachable engine
  contextId : ∀ id, s.contextId = some id → id = toString s.ids.last

/-- Nothing happened that has to do with addresses. -/
structure Plain (s s' : WalkState) : Prop where
  ids : s'.ids = s.ids
  contextId : s'.contextId = s.contextId
  addresses : addresses s'.journal = addresses s.journal
  content : ∃ text, s'.response.content = s.response.content ++ text

namespace Plain

variable {s s' s'' : WalkState}

theorem of_eq (hids : s'.ids = s.ids) (hid : s'.contextId = s.contextId)
    (hjournal : PageEngine.addresses s'.journal = PageEngine.addresses s.journal)
    (hresponse : s'.response = s.response) : s.Plain s' :=
  ⟨hids, hid, hjournal, "", by rw [hresponse, String.append_empty]⟩

theorem refl (s : WalkState) : s.Plain s := .of_eq rfl rfl rfl rfl

theorem trans (h : s.Plain s') (h' : s'.Plain s'') : s.Plain s'' := by
  obtain ⟨text, htext⟩ := h.content
  obtain ⟨more, hmore⟩ := h'.content
  refine ⟨h'.ids.trans h.ids, h'.contextId.trans h.contextId,
    h'.addresses.trans h.addresses, text ++ more, ?_⟩
  rw [hmore, htext, String.append_assoc]

/-- One event was recorded. -/
theorem of_step {step : Step} (hids : s'.ids = s.ids) (hid : s'.contextId = s.contextId)
    (hjournal : s'.journal = step :: s.journal) (hstep : step.address? = none)
    (hresponse : s'.response = s.response) : s.Plain s' := by
  refine .of_eq hids hid ?_ hresponse
  rw [hjournal, addresses_cons_of_none hstep]

theorem sound {engine : Engine} (h : s.Plain s') (hs : s.Sound engine)
    (hmemory : s'.memory.Reachable engine) : s'.Sound engine := by
  refine ⟨hmemory, fun id hid => ?_⟩
  rw [h.ids]
  exact hs.contextId id (h.contextId ▸ hid)

end Plain

end WalkState

/-! ### Computations -/

namespace Walk

/-- A run from a sound state ends in a sound state that is related to it, and fails lawfully. -/
structure Ends (engine : Engine) (R : WalkState → WalkState → Prop) (s : WalkState)
    (run : Except EngineError α × WalkState) : Prop where
  sound : run.2.Sound engine
  related : R s run.2
  lawful : Lawful run.1

/-- Every run of the computation from a sound state ends so. -/
def Obeys (engine : Engine) (R : WalkState → WalkState → Prop) (x : Walk α) : Prop :=
  ∀ s, s.Sound engine → Ends engine R s (x.runFrom s)

theorem obeys_bind {engine : Engine} {R : WalkState → WalkState → Prop} {x : Walk α} {f : α → Walk β}
    (htrans : ∀ {s s' s''}, R s s' → R s' s'' → R s s'') (hx : Obeys engine R x)
    (hf : ∀ a, Obeys engine R (f a)) : Obeys engine R (x >>= f) := by
  intro s hs
  obtain ⟨hsound, hends, hlawful⟩ := hx s hs
  rw [runFrom_bind]
  rcases h : x.runFrom s with ⟨r, s'⟩
  rw [h] at hsound hends hlawful
  cases r with
  | ok a =>
    obtain ⟨hsound', hends', hlawful'⟩ := hf a s' hsound
    exact ⟨hsound', htrans hends hends', hlawful'⟩
  | error e => exact ⟨hsound, hends, lawful_error (hlawful e rfl)⟩

/-- The computation obeys the laws and has nothing to do with addresses. -/
abbrev Plainly (task : Task) (x : Walk α) : Prop :=
  Obeys task.engine WalkState.Plain x

theorem plainly_of_run {x : Walk α}
    (h : ∀ s, s.memory.Reachable task.engine → (x.runFrom s).2.memory.Reachable task.engine ∧
      s.Plain (x.runFrom s).2 ∧ Lawful (x.runFrom s).1) : Plainly task x := by
  intro s hs
  obtain ⟨hmemory, hplain, hlawful⟩ := h s hs.memory
  exact ⟨hplain.sound hs hmemory, hplain, hlawful⟩

/-- A computation that reads the state. -/
theorem plainly_of_eq {x : Walk α} (h : ∀ s, ∃ a, x.runFrom s = (.ok a, s)) : Plainly task x := by
  intro s hs
  obtain ⟨a, ha⟩ := h s
  rw [ha]
  exact ⟨hs, .refl s, lawful_ok a⟩

/-- A computation that cannot fail and remembers nothing. -/
theorem plainly_of_plain {x : Walk α}
    (h : ∀ s, ∃ a s', x.runFrom s = (.ok a, s') ∧ s'.memory = s.memory ∧ s.Plain s') :
    Plainly task x := by
  intro s hs
  obtain ⟨a, s', hrun, hmemory, hplain⟩ := h s
  rw [hrun]
  exact ⟨hplain.sound hs (hmemory ▸ hs.memory), hplain, lawful_ok a⟩

theorem plainly_bind {x : Walk α} {f : α → Walk β} (hx : Plainly task x)
    (hf : ∀ a, Plainly task (f a)) : Plainly task (x >>= f) :=
  obeys_bind .trans hx hf

theorem plainly_pure (a : α) : Plainly task (pure a : Walk α) :=
  plainly_of_eq fun _ => ⟨a, rfl⟩

theorem plainly_throw {e : EngineError} (h : e.isInternal = false) :
    Plainly task (throw e : Walk α) :=
  fun s hs => ⟨hs, .refl s, lawful_error h⟩

theorem plainly_read (a : Association) : Plainly task (read a) :=
  plainly_of_eq fun s => ⟨_, runFrom_read a s⟩

theorem plainly_read? (a : Option Association) : Plainly task (read? a) :=
  plainly_of_eq fun s => ⟨_, runFrom_read? a s⟩

theorem plainly_flag (a : Option Association) : Plainly task (flag a) :=
  plainly_of_eq fun s => ⟨_, runFrom_flag a s⟩

theorem plainly_attributes (bindings : Associations) : Plainly task (attributes bindings) :=
  plainly_of_eq fun s => ⟨_, runFrom_attributes bindings s⟩

theorem plainly_pathText : Plainly task pathText :=
  plainly_of_eq fun s => ⟨_, runFrom_pathText s⟩

theorem plainly_isSender : Plainly task (isSender task) :=
  plainly_of_eq fun s => ⟨_, runFrom_isSender task s⟩

theorem plainly_standing : Plainly task (standing task) :=
  plainly_of_eq fun _ => ⟨_, rfl⟩

theorem plainly_print (text : String) : Plainly task (print text) :=
  plainly_of_plain fun s => ⟨(), _, runFrom_print text s, rfl, rfl, rfl, rfl, text, rfl⟩

theorem plainly_record {step : Step} (h : step.address? = none) : Plainly task (record step) :=
  plainly_of_plain fun s => ⟨(), _, runFrom_record step s, rfl, .of_step rfl rfl rfl h rfl⟩

theorem plainly_enterBranch (index : UInt32) : Plainly task (enterBranch index) :=
  plainly_of_plain fun s => ⟨(), _, runFrom_enterBranch index s, rfl, .of_eq rfl rfl rfl rfl⟩

/-- No more siblings than there are indices is a limit of the page, not a mistake of the walk. -/
theorem plainly_nextSibling : Plainly task nextSibling := by
  intro s hs
  cases hnext : s.path.next? with
  | none =>
    rw [runFrom_nextSibling_error hnext]
    exact plainly_throw (α := Unit) rfl s hs
  | some path =>
    rw [runFrom_nextSibling hnext]
    exact ⟨⟨hs.memory, hs.contextId⟩, .of_eq rfl rfl rfl rfl, lawful_ok ()⟩

theorem plainly_write (a : Association) (v : Value) : Plainly task (write a v) :=
  plainly_of_plain fun s => ⟨(), _, runFrom_write a v s, rfl, .of_step rfl rfl rfl rfl rfl⟩

theorem plainly_write? (a : Option Association) (v : Value) : Plainly task (write? a v) := by
  cases a with
  | none => exact plainly_pure ()
  | some a => exact plainly_write a v

/-- A template that cannot be made is missing or wrong. -/
theorem plainly_template (name : String) : Plainly task (template task name) := by
  refine plainly_of_run fun s hs => ?_
  have hlawful : Lawful (TemplateCache.get task.engine name s.memory.templates).1 :=
    hs.fst_get name ▸ task.engine.lawful_compile name
  rw [template, runFrom_bind_ok (runFrom_get s)]
  dsimp only
  rw [runFrom_bind_ok (runFrom_modify _ s)]
  cases hget : (TemplateCache.get task.engine name s.memory.templates).1 with
  | ok t => exact ⟨hs.load name, .of_eq rfl rfl rfl rfl, lawful_ok t⟩
  | error e =>
    exact ⟨hs.load name, .of_eq rfl rfl rfl rfl, lawful_error (hlawful e hget)⟩

theorem plainly_instantiate (name : String) (kind : ComponentClass) :
    Plainly task (instantiate task name kind) :=
  plainly_bind (plainly_template name) fun _ => plainly_pure _

theorem plainly_answer (outcome : Outcome) : Plainly task (answer task outcome) := by
  cases outcome with
  | stay => exact plainly_pure none
  | pageNamed name => exact plainly_pure _
  | page name values =>
    cases values with
    | none => exact plainly_bind (plainly_instantiate name _) fun _ => plainly_pure _
    | some values => exact plainly_bind (plainly_instantiate name _) fun _ => plainly_pure _
  | respond response => exact plainly_pure _

/-- What is performed belongs to a component that was entered, so only its action can be
missing. -/
theorem lawful_invoke {scope : Scope} {depth : Nat} (h : depth ≤ scope.depth) (a : Association) :
    Lawful (scope.invoke a depth).1 := by
  unfold Scope.invoke
  split
  · exact lawful_ok _
  · exact lawful_ok _
  · rename_i d name htarget
    obtain ⟨c, hc⟩ : ∃ c, scope.get? d = some c :=
      Option.isSome_iff_exists.1
        ((scope.get?_isSome_iff d).2 (Nat.le_trans (Scope.target_le htarget) h))
    rw [Scope.performAt, hc]
    exact lawful_mapError (fun _ => rfl) _
  · exact lawful_ok _
  · rename_i htarget
    exact absurd htarget (Scope.target_ne_outside h a)

theorem plainly_invoke (a : Association) : Plainly task (invoke task a) := by
  refine plainly_bind (plainly_record rfl) fun _ s hs => ?_
  have hlawful := lawful_invoke (Nat.le_refl s.scope.depth) a
  rw [runFrom_bind_ok (runFrom_get s)]
  rcases hinvoke : s.scope.invoke a s.scope.depth with ⟨outcome, scope⟩
  rw [hinvoke] at hlawful
  have hperformed : Plainly task (modify fun s : WalkState => { s with scope }) :=
    plainly_of_plain fun s => ⟨(), _, runFrom_modify _ s, rfl, .of_eq rfl rfl rfl rfl⟩
  refine plainly_bind hperformed (fun _ => ?_) s hs
  cases outcome with
  | ok outcome => exact plainly_answer outcome
  | error e => exact plainly_throw (hlawful e rfl)

theorem plainly_formValue (name : String) : Plainly task (formValue task name) := by
  unfold formValue
  split
  · exact plainly_pure _
  · exact plainly_pure _
  · exact plainly_throw rfl

theorem plainly_controlName (name : Option Association) : Plainly task (controlName name) := by
  refine plainly_bind (plainly_read? name) fun v => ?_
  split
  · exact plainly_pure _
  · exact plainly_pathText

end Walk

/-! ### Elements without a body -/

namespace FieldBindings

theorem plainly_takeValue (b : FieldBindings) : Plainly task (b.takeValue task) := by
  refine plainly_bind (plainly_flag _) fun disabled => ?_
  split
  · exact plainly_pure _
  refine plainly_bind (plainly_controlName _) fun name => ?_
  refine plainly_bind (plainly_formValue name) fun v => ?_
  split
  · exact plainly_pure _
  · exact plainly_write _ _

theorem plainly_disabledAttribute (b : FieldBindings) : Plainly task b.disabledAttribute :=
  plainly_bind (plainly_flag _) fun _ => plainly_pure _

theorem plainly_renderField (b : FieldBindings) : Plainly task b.renderField := by
  refine plainly_bind (plainly_controlName _) fun name => ?_
  refine plainly_bind (plainly_read _) fun v => ?_
  refine plainly_bind b.plainly_disabledAttribute fun disabled => ?_
  exact plainly_bind (plainly_attributes _) fun _ => plainly_print _

theorem plainly_renderArea (b : FieldBindings) : Plainly task b.renderArea := by
  refine plainly_bind (plainly_controlName _) fun name => ?_
  refine plainly_bind b.plainly_disabledAttribute fun disabled => ?_
  refine plainly_bind (plainly_attributes _) fun attributes => ?_
  exact plainly_bind (plainly_read _) fun _ => plainly_print _

end FieldBindings

namespace PopUpBindings

/-- A selection that is refused is an error of the request. -/
theorem plainly_resolve (items : List Value) (name option : String) :
    Plainly task (liftState (resolve items name option)) := by
  unfold resolve
  split
  · exact plainly_pure _
  · exact plainly_throw rfl

theorem isInternal_of_resolveAll {items : List Value} {name : String} {options : List String}
    {e : StateError} (h : resolveAll items name options = .error e) :
    (EngineError.state e).isInternal = false := by
  induction options with
  | nil => cases h
  | cons option rest ih =>
    rw [resolveAll] at h
    split at h
    · exact ih h
    · rcases hfirst : resolve items name option with e' | item
      · rw [hfirst] at h
        cases h
        unfold resolve at hfirst
        split at hfirst
        · cases hfirst
        · cases hfirst
          rfl
      · rcases hrest : resolveAll items name rest with e' | others
        · rw [hfirst, hrest] at h
          cases h
          exact ih hrest
        · rw [hfirst, hrest] at h
          cases h

theorem plainly_takeSelections (b : PopUpBindings) (name : String) :
    Plainly task (b.takeSelections task name) := by
  unfold takeSelections
  split
  · exact plainly_pure _
  · exact plainly_pure _
  · refine plainly_bind (plainly_read _) fun items => ?_
    refine plainly_bind ?_ fun _ => plainly_write _ _
    unfold liftState
    split
    · exact plainly_pure _
    · rename_i e h
      exact plainly_throw (isInternal_of_resolveAll h)

theorem plainly_takeSelection (b : PopUpBindings) (name : String) :
    Plainly task (b.takeSelection task name) := by
  unfold takeSelection
  split
  · exact plainly_pure _
  refine plainly_bind (plainly_formValue name) fun v => ?_
  split
  · exact plainly_pure _
  · split
    · exact plainly_write _ _
    · refine plainly_bind (plainly_read _) fun items => ?_
      exact plainly_bind (plainly_resolve _ _ _) fun _ => plainly_write _ _
  · exact plainly_write _ _

theorem plainly_takeValue (b : PopUpBindings) : Plainly task (b.takeValue task) := by
  refine plainly_bind (plainly_flag _) fun disabled => ?_
  split
  · exact plainly_pure _
  refine plainly_bind (plainly_controlName _) fun name => ?_
  refine plainly_bind (plainly_flag _) fun multiple => ?_
  split
  · exact b.plainly_takeSelections name
  · exact b.plainly_takeSelection name

theorem plainly_isSelected (b : PopUpBindings) (multiple : Bool) (item : Value) :
    Plainly task (b.isSelected multiple item) := by
  unfold isSelected
  split
  · refine plainly_bind (plainly_read? _) fun v => ?_
    split <;> exact plainly_pure _
  · refine plainly_bind (plainly_read? _) fun v => ?_
    split <;> exact plainly_pure _

theorem plainly_renderOptions (b : PopUpBindings) (multiple : Bool) (i : Nat)
    (items : List Value) : Plainly task (b.renderOptions multiple i items) := by
  induction items generalizing i with
  | nil => exact plainly_pure _
  | cons item rest ih =>
    refine plainly_bind (plainly_write? _ _) fun _ => ?_
    refine plainly_bind (plainly_write? _ _) fun _ => ?_
    refine plainly_bind (plainly_read? _) fun shown => ?_
    refine plainly_bind (b.plainly_isSelected multiple item) fun selected => ?_
    exact plainly_bind (plainly_print _) fun _ => ih (i + 1)

theorem plainly_render (b : PopUpBindings) : Plainly task b.render := by
  have hoptions : ∀ multiple, Plainly task (do
      b.renderOptions multiple 0 (← read b.list).items
      write? b.item .null
      print (Html.endTag "select")) := fun multiple =>
    plainly_bind (plainly_read _) fun items =>
      plainly_bind (b.plainly_renderOptions multiple 0 _) fun _ =>
        plainly_bind (plainly_write? _ _) fun _ => plainly_print _
  refine plainly_bind (plainly_flag _) fun multiple => ?_
  refine plainly_bind (plainly_controlName _) fun name => ?_
  refine plainly_bind (plainly_flag _) fun disabled => ?_
  refine plainly_bind (plainly_attributes _) fun attributes => ?_
  refine plainly_bind (plainly_print _) fun _ => ?_
  refine plainly_bind (plainly_read? _) fun label => ?_
  split
  · exact hoptions multiple
  · exact plainly_bind (plainly_print _) fun _ => hoptions multiple

end PopUpBindings

namespace Tag

theorem plainly_without {x : Walk Unit} (h : Plainly task x) : Plainly task (without x) :=
  plainly_bind h fun _ => plainly_pure _

theorem plainly_printShown (escapes : Option Association) (shown : Value) :
    Plainly task (printShown escapes shown) := by
  unfold printShown
  split
  · exact plainly_pure _
  · refine plainly_bind (plainly_read? _) fun escapes => ?_
    split <;> exact plainly_print _

theorem plainly_renderString (value : Association) (whenEmpty escapes : Option Association) :
    Plainly task (renderString value whenEmpty escapes) := by
  refine plainly_bind (plainly_read _) fun written => ?_
  split
  · exact plainly_bind (plainly_read _) fun _ => plainly_printShown _ _
  · exact plainly_bind (plainly_read _) fun _ => plainly_printShown _ _
  · exact plainly_printShown _ _

theorem plainly_renderVoid (name : Association) (bindings : Associations) :
    Plainly task (renderVoid name bindings) := by
  refine plainly_bind (plainly_read _) fun v => ?_
  split
  · exact plainly_pure _
  · exact plainly_bind (plainly_attributes _) fun _ => plainly_print _

theorem plainly_invokeSubmit (action : Association) : Plainly task (invokeSubmit task action) := by
  refine plainly_bind plainly_pathText fun name => ?_
  split
  · exact plainly_invoke action
  · exact plainly_pure _

theorem plainly_renderSubmit (value : Option Association) (bindings : Associations) :
    Plainly task (renderSubmit value bindings) := by
  refine plainly_bind plainly_pathText fun name => ?_
  refine plainly_bind (plainly_read? _) fun v => ?_
  exact plainly_bind (plainly_attributes _) fun _ => plainly_print _

theorem plainly_followLink (target : LinkTarget) : Plainly task (followLink task target) := by
  cases target with
  | action a => exact plainly_invoke a
  | pageName name =>
    exact plainly_bind (plainly_record rfl) fun _ =>
      plainly_bind (plainly_read name) fun _ => plainly_pure _
  | href url => exact plainly_pure _

theorem plainly_isVisible (condition : Association) (negate : Option Association) :
    Plainly task (isVisible condition negate) :=
  plainly_bind (plainly_read _) fun _ => plainly_bind (plainly_flag _) fun _ => plainly_pure _

theorem plainly_mark (describe : Standing → String) (value : Option Association) :
    Plainly task (mark task describe value) := by
  refine plainly_bind plainly_standing fun standing => ?_
  dsimp only
  split
  · exact plainly_print _
  · exact plainly_pure _
  · refine plainly_bind (plainly_read _) fun v => ?_
    split <;> exact plainly_write _ _

end Tag

end PageEngine
