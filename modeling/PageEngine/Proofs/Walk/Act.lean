import Mathlib.Logic.Relation
import PageEngine.Proofs.Component.Scope
import PageEngine.Proofs.Walk.Run

/-! What a tag does by itself, apart from visiting other elements. It prints and takes a
context id in a rendering, performs actions and loads templates for their answers in an
invocation, and writes values. None of this moves the path, enters a component or begins a
form. -/

namespace PageEngine

open Walk

/-- One act of a tag that may write or not. -/
inductive Act (task : Task) (writes : Bool) (s : WalkState) : WalkState → Prop
  | print (text : String) (h : task.phase = .render) :
    Act task writes s { s with response := s.response.append text }
  | identify (h : task.phase = .render) (hid : s.contextId = none) :
    Act task writes s { s with ids := s.ids.next.2, contextId := some s.ids.next.1 }
  | write (a : Association) (v : Value) (h : writes = true) :
    Act task writes s { s with
      journal := .write a v s.scope :: s.journal
      scope := s.scope.written a s.scope.depth v }
  | follow (a : Association) (h : task.phase = .invokeAction) :
    Act task writes s { s with journal := .perform a :: s.journal }
  | perform (a : Association) (h : task.phase = .invokeAction) :
    Act task writes s { s with
      journal := .perform a :: s.journal
      scope := (s.scope.invoke a s.scope.depth).2 }
  | load (name : String) (h : task.phase = .invokeAction) :
    Act task writes s { s with
      memory.templates := (TemplateCache.get task.engine name s.memory.templates).2 }

/-- Any number of acts. -/
abbrev Acts (task : Task) (writes : Bool) : WalkState → WalkState → Prop :=
  Relation.ReflTransGen (Act task writes)

variable {task : Task} {writes : Bool} {s s' : WalkState} {α β : Type}

theorem Act.scope_eq (h : Act task false s s') (hphase : task.phase = .render) :
    s'.scope = s.scope := by
  cases h with
  | write a v h => cases h
  | perform a h => exact absurd (hphase.symm.trans h) (by decide)
  | _ => rfl

/-- A rendering changes no component unless it writes. -/
theorem acts_scope_eq (h : Acts task false s s') (hphase : task.phase = .render) :
    s'.scope = s.scope := by
  induction h with
  | refl => rfl
  | tail _ hact ih => exact (hact.scope_eq hphase).trans ih

/-- Acts change values only. -/
theorem Act.alike (h : Act task writes s s') : s.scope.Alike s'.scope := by
  cases h with
  | write a v h => exact s.scope.alike_written a _ v
  | perform a h => exact s.scope.alike_invoke a _
  | _ => exact .refl _

theorem acts_alike (h : Acts task writes s s') : s.scope.Alike s'.scope := by
  induction h with
  | refl => exact .refl _
  | tail _ hact ih => exact ih.trans hact.alike

/-- Only the content of a form changes whether the walk counts as inside of one. -/
theorem Act.inForm_eq (h : Act task writes s s') : s'.inForm = s.inForm := by
  cases h <;> rfl

theorem acts_inForm_eq (h : Acts task writes s s') : s'.inForm = s.inForm := by
  induction h with
  | refl => rfl
  | tail _ hact ih => exact hact.inForm_eq.trans ih

/-! ### Computations made of acts -/

namespace Walk

/-- Every run of the computation, failed or not, is made of acts. -/
def ByActs (task : Task) (writes : Bool) (x : Walk α) : Prop :=
  ∀ s, Acts task writes s (x.runFrom s).2

theorem byActs_of_unchanged {x : Walk α} (h : ∀ s, (x.runFrom s).2 = s) : ByActs task writes x := by
  intro s
  rw [h s]

theorem byActs_of_act {x : Walk α} (h : ∀ s, Act task writes s (x.runFrom s).2) : ByActs task writes x :=
  fun s => .single (h s)

theorem byActs_bind {x : Walk α} {f : α → Walk β} (hx : ByActs task writes x)
    (hf : ∀ a, ByActs task writes (f a)) : ByActs task writes (x >>= f) :=
  related_runFrom_bind .trans hx hf

theorem byActs_pure (a : α) : ByActs task writes (pure a : Walk α) :=
  byActs_of_unchanged fun _ => rfl

theorem byActs_throw (e : EngineError) : ByActs task writes (throw e : Walk α) :=
  byActs_of_unchanged fun _ => rfl

theorem byActs_read (a : Association) : ByActs task writes (read a) :=
  byActs_of_unchanged fun _ => rfl

theorem byActs_read? (a : Option Association) : ByActs task writes (read? a) :=
  byActs_of_unchanged fun s => by rw [runFrom_read?]

theorem byActs_flag (a : Option Association) : ByActs task writes (flag a) :=
  byActs_of_unchanged fun s => by rw [runFrom_flag]

theorem byActs_attributes (bindings : Associations) : ByActs task writes (attributes bindings) :=
  byActs_of_unchanged fun _ => rfl

theorem byActs_pathText : ByActs task writes pathText :=
  byActs_of_unchanged fun _ => rfl

theorem byActs_isSender : ByActs task writes (isSender task) :=
  byActs_of_unchanged fun _ => rfl

theorem byActs_standing : ByActs task writes (standing task) :=
  byActs_of_unchanged fun _ => rfl

theorem byActs_print (h : task.phase = .render) (text : String) : ByActs task writes (print text) :=
  byActs_of_act fun _ => .print text h

theorem runFrom_write (a : Association) (v : Value) (s : WalkState) :
    (write a v).runFrom s = (.ok (), { s with
      journal := .write a v s.scope :: s.journal
      scope := s.scope.written a s.scope.depth v }) := by
  rw [write, runFrom_bind_ok (runFrom_get s), runFrom_bind_ok (runFrom_record _ s)]
  exact runFrom_liftScope (Scope.write_eq (Nat.le_refl _) a v)

theorem byActs_write (a : Association) (v : Value) : ByActs task true (write a v) := by
  refine byActs_of_act fun s => ?_
  rw [runFrom_write]
  exact .write a v rfl

theorem byActs_write? (a : Option Association) (v : Value) : ByActs task true (write? a v) := by
  cases a with
  | none => exact byActs_pure ()
  | some a => exact byActs_write a v

theorem byActs_contextId (h : task.phase = .render) : ByActs task writes contextId := by
  intro s
  rw [contextId, runFrom_bind_ok (runFrom_get s)]
  cases hid : s.contextId with
  | some id => exact .refl
  | none => exact .single (.identify h hid)

theorem byActs_actionUrl (h : task.phase = .render) : ByActs task writes actionUrl := by
  refine byActs_bind (byActs_contextId h) fun id => ?_
  exact byActs_of_unchanged fun _ => rfl

theorem byActs_template (h : task.phase = .invokeAction) (name : String) :
    ByActs task writes (template task name) := by
  intro s
  rw [template, runFrom_bind_ok (runFrom_get s)]
  dsimp only
  rw [runFrom_bind_ok (runFrom_modify _ s)]
  refine .single ?_
  cases (TemplateCache.get task.engine name s.memory.templates).1 with
  | ok t => exact .load name h
  | error e => exact .load name h

theorem byActs_answer (h : task.phase = .invokeAction) (outcome : Outcome) :
    ByActs task writes (answer task outcome) := by
  have hnew : ∀ name kind, ByActs task writes (instantiate task name kind) := fun name kind =>
    byActs_bind (byActs_template h name) fun _ => byActs_pure _
  cases outcome with
  | stay => exact byActs_pure none
  | pageNamed name => exact byActs_pure _
  | page name values =>
    cases values with
    | none => exact byActs_bind (hnew name _) fun _ => byActs_pure _
    | some values => exact byActs_bind (hnew name _) fun _ => byActs_pure _
  | respond response => exact byActs_pure _

theorem byActs_invoke (h : task.phase = .invokeAction) (a : Association) :
    ByActs task writes (invoke task a) := by
  intro s
  rw [invoke, runFrom_bind_ok (runFrom_record _ s), runFrom_bind_ok (runFrom_get _)]
  dsimp only
  rw [runFrom_bind_ok (runFrom_modify _ _)]
  refine .trans (.single (.perform a h)) ?_
  cases (s.scope.invoke a s.scope.depth).1 with
  | ok outcome => exact byActs_answer h outcome _
  | error e => exact .refl

theorem byActs_formValue (name : String) : ByActs task writes (formValue task name) := by
  unfold formValue
  split
  · exact byActs_pure _
  · exact byActs_pure _
  · exact byActs_throw _

theorem byActs_controlName (name : Option Association) : ByActs task writes (controlName name) := by
  refine byActs_bind (byActs_read? name) fun v => ?_
  split
  · exact byActs_pure _
  · exact byActs_pathText

end Walk

/-! ### Elements without a body -/

namespace FieldBindings

theorem byActs_takeValue (b : FieldBindings) : ByActs task true (b.takeValue task) := by
  refine byActs_bind (byActs_flag _) fun disabled => ?_
  split
  · exact byActs_pure _
  refine byActs_bind (byActs_controlName _) fun name => ?_
  refine byActs_bind (byActs_formValue name) fun v => ?_
  split
  · exact byActs_pure _
  · exact byActs_write _ _

theorem byActs_disabledAttribute (b : FieldBindings) : ByActs task writes b.disabledAttribute :=
  byActs_bind (byActs_flag _) fun _ => byActs_pure _

theorem byActs_renderField (h : task.phase = .render) (b : FieldBindings) :
    ByActs task writes b.renderField := by
  refine byActs_bind (byActs_controlName _) fun name => ?_
  refine byActs_bind (byActs_read _) fun v => ?_
  refine byActs_bind b.byActs_disabledAttribute fun disabled => ?_
  exact byActs_bind (byActs_attributes _) fun _ => byActs_print h _

theorem byActs_renderArea (h : task.phase = .render) (b : FieldBindings) :
    ByActs task writes b.renderArea := by
  refine byActs_bind (byActs_controlName _) fun name => ?_
  refine byActs_bind b.byActs_disabledAttribute fun disabled => ?_
  refine byActs_bind (byActs_attributes _) fun attributes => ?_
  exact byActs_bind (byActs_read _) fun _ => byActs_print h _

end FieldBindings

namespace PopUpBindings

theorem byActs_liftState (x : Except StateError α) : ByActs task writes (liftState x) := by
  cases x with
  | ok a => exact byActs_pure a
  | error e => exact byActs_throw _

theorem byActs_takeSelections (b : PopUpBindings) (name : String) :
    ByActs task true (b.takeSelections task name) := by
  unfold takeSelections
  split
  · exact byActs_pure _
  · exact byActs_pure _
  · refine byActs_bind (byActs_read _) fun items => ?_
    exact byActs_bind (byActs_liftState _) fun _ => byActs_write _ _

theorem byActs_takeSelection (b : PopUpBindings) (name : String) :
    ByActs task true (b.takeSelection task name) := by
  unfold takeSelection
  split
  · exact byActs_pure _
  refine byActs_bind (byActs_formValue name) fun v => ?_
  split
  · exact byActs_pure _
  · split
    · exact byActs_write _ _
    · refine byActs_bind (byActs_read _) fun items => ?_
      exact byActs_bind (byActs_liftState _) fun _ => byActs_write _ _
  · exact byActs_write _ _

theorem byActs_takeValue (b : PopUpBindings) : ByActs task true (b.takeValue task) := by
  refine byActs_bind (byActs_flag _) fun disabled => ?_
  split
  · exact byActs_pure _
  refine byActs_bind (byActs_controlName _) fun name => ?_
  refine byActs_bind (byActs_flag _) fun multiple => ?_
  split
  · exact b.byActs_takeSelections name
  · exact b.byActs_takeSelection name

theorem byActs_isSelected (b : PopUpBindings) (multiple : Bool) (item : Value) :
    ByActs task writes (b.isSelected multiple item) := by
  unfold isSelected
  split
  · refine byActs_bind (byActs_read? _) fun v => ?_
    split <;> exact byActs_pure _
  · refine byActs_bind (byActs_read? _) fun v => ?_
    split <;> exact byActs_pure _

theorem byActs_renderOptions (h : task.phase = .render) (b : PopUpBindings) (multiple : Bool)
    (i : Nat) (items : List Value) : ByActs task true (b.renderOptions multiple i items) := by
  induction items generalizing i with
  | nil => exact byActs_pure _
  | cons item rest ih =>
    refine byActs_bind (byActs_write? _ _) fun _ => ?_
    refine byActs_bind (byActs_write? _ _) fun _ => ?_
    refine byActs_bind (byActs_read? _) fun shown => ?_
    refine byActs_bind (b.byActs_isSelected multiple item) fun selected => ?_
    exact byActs_bind (byActs_print h _) fun _ => ih (i + 1)

/-- What a selection prints inside of its tag, and the end of it. -/
theorem byActs_renderInside (h : task.phase = .render) (b : PopUpBindings) (multiple : Bool) :
    ByActs task true (do
      match ← read? b.noSelection with
      | none => pure ()
      | some label =>
        print (Html.startTag "option" [("value", .text noSelectionValue)] false ++
          Html.escape label.display ++ Html.endTag "option")
      b.renderOptions multiple 0 (← read b.list).items
      write? b.item .null
      print (Html.endTag "select")) := by
  refine byActs_bind (byActs_read? _) fun label => ?_
  have hrest : ByActs task true (do
      b.renderOptions multiple 0 (← read b.list).items
      write? b.item .null
      print (Html.endTag "select")) := by
    refine byActs_bind (byActs_read _) fun items => ?_
    refine byActs_bind (b.byActs_renderOptions h multiple 0 _) fun _ => ?_
    exact byActs_bind (byActs_write? _ _) fun _ => byActs_print h _
  split
  · exact hrest
  · exact byActs_bind (byActs_print h _) fun _ => hrest

theorem byActs_render (h : task.phase = .render) (b : PopUpBindings) :
    ByActs task true b.render := by
  refine byActs_bind (byActs_flag _) fun multiple => ?_
  refine byActs_bind (byActs_controlName _) fun name => ?_
  refine byActs_bind (byActs_flag _) fun disabled => ?_
  refine byActs_bind (byActs_attributes _) fun attributes => ?_
  exact byActs_bind (byActs_print h _) fun _ => b.byActs_renderInside h multiple

end PopUpBindings

namespace Tag

theorem byActs_without {x : Walk Unit} (h : ByActs task writes x) : ByActs task writes (without x) :=
  byActs_bind h fun _ => byActs_pure _

theorem byActs_printShown (h : task.phase = .render) (escapes : Option Association)
    (shown : Value) : ByActs task writes (printShown escapes shown) := by
  unfold printShown
  split
  · exact byActs_pure _
  · refine byActs_bind (byActs_read? _) fun escapes => ?_
    split <;> exact byActs_print h _

theorem byActs_renderString (h : task.phase = .render) (value : Association)
    (whenEmpty escapes : Option Association) :
    ByActs task writes (renderString value whenEmpty escapes) := by
  refine byActs_bind (byActs_read _) fun written => ?_
  split
  · exact byActs_bind (byActs_read _) fun _ => byActs_printShown h _ _
  · exact byActs_bind (byActs_read _) fun _ => byActs_printShown h _ _
  · exact byActs_printShown h _ _

theorem byActs_renderVoid (h : task.phase = .render) (name : Association)
    (bindings : Associations) : ByActs task writes (renderVoid name bindings) := by
  refine byActs_bind (byActs_read _) fun v => ?_
  split
  · exact byActs_pure _
  · exact byActs_bind (byActs_attributes _) fun _ => byActs_print h _

theorem byActs_invokeSubmit (h : task.phase = .invokeAction) (action : Association) :
    ByActs task writes (invokeSubmit task action) := by
  refine byActs_bind byActs_pathText fun name => ?_
  split
  · exact byActs_invoke h action
  · exact byActs_pure _

theorem byActs_renderSubmit (h : task.phase = .render) (value : Option Association)
    (bindings : Associations) : ByActs task writes (renderSubmit value bindings) := by
  refine byActs_bind byActs_pathText fun name => ?_
  refine byActs_bind (byActs_read? _) fun v => ?_
  exact byActs_bind (byActs_attributes _) fun _ => byActs_print h _

theorem byActs_followLink (h : task.phase = .invokeAction) (target : LinkTarget) :
    ByActs task writes (followLink task target) := by
  cases target with
  | action a => exact byActs_invoke h a
  | pageName name =>
    have hfollow : ByActs task writes (record (.perform name)) :=
      byActs_of_act fun _ => .follow name h
    exact byActs_bind hfollow fun _ => byActs_bind (byActs_read name) fun _ => byActs_pure _
  | href url => exact byActs_pure _

theorem byActs_mark (describe : Standing → String) (value : Option Association) :
    ByActs task (task.phase != .render) (mark task describe value) := by
  refine byActs_bind byActs_standing fun standing => ?_
  dsimp only
  split
  · rename_i h
    exact byActs_print h _
  · exact byActs_pure _
  · rename_i a hphase
    have hwrites : (task.phase != .render) = true := bne_iff_ne.2 hphase
    rw [hwrites]
    refine byActs_bind (byActs_read _) fun v => ?_
    split <;> exact byActs_write _ _

end Tag

/-- Whether a tag may write in a phase. -/
def Tag.mayWrite (phase : Phase) : Tag → Bool
  | .repetition .. => true
  | .textField .. => phase == .takeValues
  | .textArea .. => phase == .takeValues
  | .popUp .. => phase != .invokeAction
  | .marker .. => phase != .render
  | _ => false

end PageEngine
