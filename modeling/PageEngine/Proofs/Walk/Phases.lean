import PageEngine.Proofs.Walk.Lockstep

/-! The three phases in lockstep. A request without form values gives the tags that visit
nothing nothing to do but print, and a request from nowhere is answered by no one. Then every
phase follows the one that takes values, unless it meets a marker, a selection that stores
something for each of its options, or, in an invocation, a form. -/

namespace PageEngine

open Walk

/-! ### Tags -/

namespace Tag

/-- Tags that do the same in every phase as far as components are concerned. Markers are not
built in. -/
def isSteady : Tag → Bool
  | .popUp b => b.item.isNone && b.index.isNone
  | .marker .. => false
  | _ => true

/-- Tags that visit neither a content nor a component. -/
def standsAlone : Tag → Bool
  | .string .. => true
  | .void .. => true
  | .submitButton .. => true
  | .textField _ => true
  | .textArea _ => true
  | .popUp _ => true
  | .actionUrl _ => true
  | _ => false

end Tag

/-- Elements at which another phase follows the one that takes values. -/
def Element.IsSteady (phase : Phase) : Element → Prop
  | .tag _ t _ => t.isSteady = true ∧ (phase = .invokeAction → t.isForm = false)
  | _ => True

/-- Nothing was submitted, and in an invocation nothing was sent from anywhere. -/
structure Task.IsIdle (task : Task) : Prop where
  form : task.request.formValues = []
  sender : task.phase = .invokeAction → task.sender = none

/-- A task that takes values, and another one of the same engine, both with nothing to do. -/
structure Task.Paired (engine : Engine) (task task' : Task) : Prop where
  takes : task.phase = .takeValues
  first : task.engine = engine
  second : task'.engine = engine
  idle : task.IsIdle
  idle' : task'.IsIdle

variable {task task' : Task} {α : Type}

namespace Walk

theorem quiet_formValue (h : task.IsIdle) (name : String) :
    Quiet (· = none) (formValue task name) := by
  have hvalues : task.request.formValuesOf name = [] := by
    rw [Request.formValuesOf, h.form]
    rfl
  unfold formValue
  rw [hvalues]
  exact quiet_pure rfl

theorem quiet_isSender (h : task.IsIdle) (hphase : task.phase = .invokeAction) :
    Quiet (· = false) (isSender task) := by
  intro s
  refine ⟨_, s, runFrom_isSender task s, ?_, .refl s⟩
  rw [h.sender hphase]
  rfl

end Walk

/-! ### Tags that visit nothing -/

namespace FieldBindings

theorem quietly_takeValue (h : task.IsIdle) (b : FieldBindings) : Quietly (b.takeValue task) := by
  refine quiet_bind (quietly_flag _) fun disabled _ => ?_
  split
  · exact quiet_pure trivial
  refine quiet_bind (quietly_controlName _) fun name _ => ?_
  refine quiet_bind (quiet_formValue h name) fun v hv => ?_
  rw [hv]
  exact quiet_pure trivial

theorem quietly_disabledAttribute (b : FieldBindings) : Quietly b.disabledAttribute :=
  quiet_bind (quietly_flag _) fun _ _ => quiet_pure trivial

theorem quietly_renderField (b : FieldBindings) : Quietly b.renderField := by
  refine quiet_bind (quietly_controlName _) fun name _ => ?_
  refine quiet_bind (quietly_read _) fun v _ => ?_
  refine quiet_bind b.quietly_disabledAttribute fun disabled _ => ?_
  exact quiet_bind (quietly_attributes _) fun _ _ => quietly_print _

theorem quietly_renderArea (b : FieldBindings) : Quietly b.renderArea := by
  refine quiet_bind (quietly_controlName _) fun name _ => ?_
  refine quiet_bind b.quietly_disabledAttribute fun disabled _ => ?_
  refine quiet_bind (quietly_attributes _) fun attributes _ => ?_
  exact quiet_bind (quietly_read _) fun _ _ => quietly_print _

end FieldBindings

namespace PopUpBindings

theorem quietly_takeValue (h : task.IsIdle) (b : PopUpBindings) : Quietly (b.takeValue task) := by
  refine quiet_bind (quietly_flag _) fun disabled _ => ?_
  split
  · exact quiet_pure trivial
  refine quiet_bind (quietly_controlName _) fun name _ => ?_
  refine quiet_bind (quietly_flag _) fun multiple _ => ?_
  split
  · have hvalues : task.request.formValuesOf name = [] := by
      rw [Request.formValuesOf, h.form]
      rfl
    unfold takeSelections
    rw [hvalues]
    split <;> exact quiet_pure trivial
  · unfold takeSelection
    split
    · exact quiet_pure trivial
    refine quiet_bind (quiet_formValue h name) fun v hv => ?_
    rw [hv]
    exact quiet_pure trivial

theorem quietly_isSelected (b : PopUpBindings) (multiple : Bool) (item : Value) :
    Quietly (b.isSelected multiple item) := by
  unfold isSelected
  split
  · refine quiet_bind (quietly_read? _) fun v _ => ?_
    split <;> exact quiet_pure trivial
  · refine quiet_bind (quietly_read? _) fun v _ => ?_
    split <;> exact quiet_pure trivial

variable {b : PopUpBindings}

theorem quietly_renderOptions (hitem : b.item = none) (hindex : b.index = none) (multiple : Bool)
    (i : Nat) (items : List Value) : Quietly (b.renderOptions multiple i items) := by
  have hnothing : ∀ v, Quietly (write? none v) := fun _ => quiet_pure trivial
  induction items generalizing i with
  | nil => exact quiet_pure trivial
  | cons item rest ih =>
    refine quiet_bind (hindex ▸ hnothing _) fun _ _ => ?_
    refine quiet_bind (hitem ▸ hnothing _) fun _ _ => ?_
    refine quiet_bind (quietly_read? _) fun shown _ => ?_
    refine quiet_bind (b.quietly_isSelected multiple item) fun selected _ => ?_
    exact quiet_bind (quietly_print _) fun _ _ => ih (i + 1)

theorem quietly_render (hitem : b.item = none) (hindex : b.index = none) : Quietly b.render := by
  have hrest : ∀ multiple, Quietly (do
      b.renderOptions multiple 0 (← read b.list).items
      write? b.item .null
      print (Html.endTag "select")) := by
    intro multiple
    refine quiet_bind (quietly_read _) fun items _ => ?_
    refine quiet_bind (quietly_renderOptions hitem hindex multiple 0 _) fun _ _ => ?_
    rw [hitem]
    exact quiet_bind (quiet_pure (p := fun _ => True) trivial) fun _ _ => quietly_print _
  refine quiet_bind (quietly_flag _) fun multiple _ => ?_
  refine quiet_bind (quietly_controlName _) fun name _ => ?_
  refine quiet_bind (quietly_flag _) fun disabled _ => ?_
  refine quiet_bind (quietly_attributes _) fun attributes _ => ?_
  refine quiet_bind (quietly_print _) fun _ _ => ?_
  refine quiet_bind (quietly_read? _) fun label _ => ?_
  split
  · exact hrest multiple
  · exact quiet_bind (quietly_print _) fun _ _ => hrest multiple

end PopUpBindings

namespace Tag

theorem quiet_without {x : Walk Unit} (h : Quietly x) : Quiet (· = none) (without x) :=
  quiet_bind h fun _ _ => quiet_pure rfl

theorem quietly_printShown (escapes : Option Association) (shown : Value) :
    Quietly (printShown escapes shown) := by
  unfold printShown
  split
  · exact quiet_pure trivial
  · refine quiet_bind (quietly_read? _) fun escapes _ => ?_
    split <;> exact quietly_print _

theorem quietly_renderString (value : Association) (whenEmpty escapes : Option Association) :
    Quietly (renderString value whenEmpty escapes) := by
  refine quiet_bind (quietly_read _) fun written _ => ?_
  split
  · exact quiet_bind (quietly_read _) fun _ _ => quietly_printShown _ _
  · exact quiet_bind (quietly_read _) fun _ _ => quietly_printShown _ _
  · exact quietly_printShown _ _

theorem quietly_renderVoid (name : Association) (bindings : Associations) :
    Quietly (renderVoid name bindings) := by
  refine quiet_bind (quietly_read _) fun v _ => ?_
  split
  · exact quiet_pure trivial
  · exact quiet_bind (quietly_attributes _) fun _ _ => quietly_print _

theorem quiet_invokeSubmit (h : task.IsIdle) (action : Association) :
    Quiet (· = none) (invokeSubmit task action) := by
  refine quiet_bind quietly_pathText fun name _ => ?_
  rw [Request.hasFormValue, h.form]
  exact quiet_pure rfl

theorem quietly_renderSubmit (value : Option Association) (bindings : Associations) :
    Quietly (renderSubmit value bindings) := by
  refine quiet_bind quietly_pathText fun name _ => ?_
  refine quiet_bind (quietly_read? _) fun v _ => ?_
  exact quiet_bind (quietly_attributes _) fun _ _ => quietly_print _

variable {expand expand' : Element → Walk (Option Answer)} {inner inner' : Walk (Option Answer)}
variable {site : Site} {c : Option Element} {t : Tag}

/-- Tags that visit nothing do nothing but print. -/
theorem quiet_visit (h : task.IsIdle) (halone : t.standsAlone = true) (ht : t.isSteady = true) :
    Quiet (· = none) (t.visit task expand site c inner) := by
  cases t with
  | string value whenEmpty escapes =>
    simp only [Tag.visit]
    split
    · exact quiet_without (quietly_renderString _ _ _)
    · exact quiet_pure rfl
  | void name bindings =>
    simp only [Tag.visit]
    split
    · exact quiet_without (quietly_renderVoid _ _)
    · exact quiet_pure rfl
  | submitButton action value bindings =>
    simp only [Tag.visit]
    split
    · exact quiet_pure rfl
    · exact quiet_invokeSubmit h action
    · exact quiet_without (quietly_renderSubmit _ _)
  | textField b =>
    simp only [Tag.visit]
    split
    · exact quiet_without (b.quietly_takeValue h)
    · exact quiet_pure rfl
    · exact quiet_without b.quietly_renderField
  | textArea b =>
    simp only [Tag.visit]
    split
    · exact quiet_without (b.quietly_takeValue h)
    · exact quiet_pure rfl
    · exact quiet_without b.quietly_renderArea
  | popUp b =>
    obtain ⟨hitem, hindex⟩ := Bool.and_eq_true_iff.1 ht
    rw [Option.isNone_iff_eq_none] at hitem hindex
    simp only [Tag.visit]
    split
    · exact quiet_without (b.quietly_takeValue h)
    · exact quiet_pure rfl
    · exact quiet_without (PopUpBindings.quietly_render hitem hindex)
  | actionUrl action =>
    simp only [Tag.visit]
    split
    · exact quiet_pure rfl
    · rename_i hphase
      refine quiet_bind (quiet_isSender h hphase) fun sender hsender => ?_
      rw [hsender]
      exact quiet_pure rfl
    · exact quiet_without (quiet_bind quietly_actionUrl fun _ _ => quietly_print _)
  | _ => cases halone

/-! ### Tags around a content -/

variable {engine : Engine} {kind : Element → Prop}

theorem lockstep_renderContainer (hinner : Lockstep engine kind inner inner') (name : Association)
    (bindings : Associations) :
    Lockstep engine kind inner (renderContainer name bindings inner') := by
  refine lockstep_before (quietly_read _) fun v _ => ?_
  split
  · exact hinner
  · refine lockstep_before (quietly_attributes _) fun attributes _ => ?_
    refine lockstep_before (quietly_print _) fun _ _ => ?_
    exact lockstep_after hinner fun result => quiet_bind (quietly_print _) fun _ _ => quiet_pure rfl

theorem lockstep_renderHyperlink (hinner : Lockstep engine kind inner inner') (target : LinkTarget)
    (bindings : Associations) :
    Lockstep engine kind inner (renderHyperlink target bindings inner') := by
  have hopened : ∀ href : Value, Lockstep engine kind inner (do
      print (Html.startTag "a" (("href", href) :: (← Walk.attributes bindings)) false)
      let result ← inner'
      print (Html.endTag "a")
      return result) := by
    intro href
    refine lockstep_before (quietly_attributes _) fun attributes _ => ?_
    refine lockstep_before (quietly_print _) fun _ _ => ?_
    exact lockstep_after hinner fun result => quiet_bind (quietly_print _) fun _ _ => quiet_pure rfl
  cases target with
  | action a => exact lockstep_before quietly_actionUrl fun url _ => hopened (.text url)
  | pageName name => exact lockstep_before quietly_actionUrl fun url _ => hopened (.text url)
  | href a => exact lockstep_before (quietly_read a) fun url _ => hopened url

theorem lockstep_renderForm {x y : Walk (Option Answer)} (h : Lockstep engine kind x (inForm y))
    (bindings : Associations) : Lockstep engine kind x (renderForm bindings y) := by
  refine lockstep_before quietly_actionUrl fun url _ => ?_
  refine lockstep_before (quietly_attributes _) fun attributes _ => ?_
  refine lockstep_before (quietly_print _) fun _ _ => ?_
  exact lockstep_after h fun result => quiet_bind (quietly_print _) fun _ _ => quiet_pure rfl

theorem quiet_inForm_none : Quiet (· = none) (inForm (pure none : Walk (Option Answer))) :=
  fun _ => ⟨none, _, rfl, rfl, rfl, rfl, rfl, rfl⟩

/-- At a steady tag every phase follows the one that takes values. -/
theorem lockstep_visit (htasks : Task.Paired engine task task')
    (ht : t.isSteady = true) (hform : task'.phase = .invokeAction → t.isForm = false)
    (hexpand : ∀ e, Lockstep engine kind (expand e) (expand' e))
    (hinner : Lockstep engine kind inner inner') (hnothing : c = none → inner' = pure none) :
    Lockstep engine kind (t.visit task expand site c inner)
      (t.visit task' expand' site c inner') := by
  by_cases halone : t.standsAlone = true
  · exact lockstep_of_quiet (quiet_visit htasks.idle halone ht)
      (quiet_visit htasks.idle' halone ht)
  cases t with
  | conditional condition negate =>
    have hvisible : Lockstep engine kind (isVisible condition negate)
        (isVisible condition negate) :=
      lockstep_bind (lockstep_read _) fun _ => lockstep_bind (lockstep_flag _) fun _ =>
        lockstep_pure _
    refine lockstep_bind hvisible fun visible => ?_
    split
    · exact hinner
    · exact lockstep_pure none
  | repetition source item index => exact lockstep_repeated hinner source item index
  | switch a bindings => exact lockstep_inSwitch htasks.first htasks.second hexpand site a bindings c
  | slot => exact lockstep_inCaller hexpand
  | container name bindings =>
    simp only [Tag.visit, htasks.takes]
    split
    · exact lockstep_renderContainer hinner name bindings
    · exact hinner
  | hyperlink target bindings =>
    simp only [Tag.visit, htasks.takes]
    split
    · exact hinner
    · rename_i hinvoke
      refine lockstep_before (quiet_isSender htasks.idle' hinvoke) fun sender hsender => ?_
      rw [hsender]
      exact hinner
    · exact lockstep_renderHyperlink hinner target bindings
  | form action bindings =>
    have hinside : Lockstep engine kind (if c.isSome then inForm inner else pure none)
        (inForm inner') := by
      cases c with
      | none =>
        rw [hnothing rfl]
        exact lockstep_of_quiet (quiet_pure rfl) quiet_inForm_none
      | some e => exact lockstep_inForm hinner
    cases hphase : task'.phase with
    | takeValues =>
      simp only [Tag.visit, htasks.takes, hphase]
      split
      · exact lockstep_inForm hinner
      · exact lockstep_pure none
    | invokeAction => cases hform hphase
    | render =>
      simp only [Tag.visit, htasks.takes, hphase]
      exact lockstep_renderForm hinside bindings
  | component name bindings => exact lockstep_inComponent htasks.first htasks.second hexpand _
  | marker describe value => cases ht
  | _ => exact absurd rfl halone

end Tag

/-! ### Elements -/

namespace Element

variable {expand expand' : Element → Walk (Option Answer)} {engine : Engine}

/-- An element that is not steady makes no difference once it was entered. -/
theorem lockstep_entered {kind : Element → Prop} {e : Element} {x y : Walk (Option Answer)}
    (hmakes : Makes task (.body e) x) (h : kind e → Lockstep engine kind x y) :
    Lockstep engine kind
      (do
        enterElement task e
        let result ← x
        record .leave
        return result)
      (do
        enterElement task' e
        let result ← y
        record .leave
        return result) := by
  have hkeeps : KeepsEvents (do
      let result ← x
      record .leave
      return result) :=
    keepsEvents_bind (fun s => (hmakes s _ _ rfl).journal) fun _ _ => List.suffix_cons ..
  by_cases he : kind e
  · refine lockstep_bind (lockstep_enterElement e) fun _ => ?_
    refine lockstep_bind (h he) fun result => ?_
    exact lockstep_bind (lockstep_record rfl) fun _ => lockstep_pure result
  · refine ⟨keepsEvents_bind (fun _ => List.suffix_cons ..) fun _ => hkeeps, ?_⟩
    -- The entry stays in the journal, so the first walk entered something of another kind.
    intro s t hst henters
    have henter : (enterElement task e).runFrom s = (.ok (), s.entered task e) := rfl
    rw [runFrom_bind_ok henter] at henters
    exact absurd (henters e _ _ ((hkeeps _).subset (List.mem_cons_self ..))) he

mutual

theorem lockstep_visit (htasks : Task.Paired engine task task')
    (hmakes : ∀ e, Makes task (.element e) (expand e))
    (hexpand : ∀ e, Lockstep engine (IsSteady task'.phase) (expand e) (expand' e)) :
    ∀ e : Element,
      Lockstep engine (IsSteady task'.phase) (e.visit task expand) (e.visit task' expand')
  | .text shown => by
    rw [visit, visit, if_neg (by rw [htasks.takes]; decide)]
    refine lockstep_bind (lockstep_enterElement _) fun _ => ?_
    have hleave : Lockstep engine (IsSteady task'.phase) (do record .leave; return none)
        (do record .leave; return (none : Option Answer)) :=
      lockstep_bind (lockstep_record rfl) fun _ => lockstep_pure none
    split
    · exact lockstep_before (quietly_print shown) fun _ _ => hleave
    · exact hleave
  | .group children => by
    rw [visit, visit]
    refine lockstep_bind (lockstep_enterElement _) fun _ => ?_
    refine lockstep_bind (lockstep_path (·.enter 0)) fun _ => ?_
    refine lockstep_bind (lockstep_visitAll htasks hmakes hexpand
      children) fun result => ?_
    refine lockstep_bind lockstep_leaveBranch fun _ => ?_
    exact lockstep_bind (lockstep_record rfl) fun _ => lockstep_pure result
  | .tag site t content => by
    refine lockstep_entered (Tag.makes_visit hmakes (makes_visitContent hmakes content) t)
      fun ⟨ht, hform⟩ => ?_
    refine Tag.lockstep_visit htasks ht hform hexpand
      (lockstep_visitContent htasks hmakes hexpand content) ?_
    rintro rfl
    rfl

theorem lockstep_visitAll (htasks : Task.Paired engine task task')
    (hmakes : ∀ e, Makes task (.element e) (expand e))
    (hexpand : ∀ e, Lockstep engine (IsSteady task'.phase) (expand e) (expand' e)) :
    ∀ es : List Element, Lockstep engine (IsSteady task'.phase) (visitAll task expand es)
      (visitAll task' expand' es)
  | [] => lockstep_pure none
  | e :: es => by
    refine lockstep_bind (lockstep_visit htasks hmakes hexpand e)
      fun result => ?_
    cases result with
    | some answer => exact lockstep_pure _
    | none =>
      exact lockstep_bind lockstep_nextSibling fun _ =>
        lockstep_visitAll htasks hmakes hexpand es

theorem lockstep_visitContent (htasks : Task.Paired engine task task')
    (hmakes : ∀ e, Makes task (.element e) (expand e))
    (hexpand : ∀ e, Lockstep engine (IsSteady task'.phase) (expand e) (expand' e)) :
    ∀ c : Option Element, Lockstep engine (IsSteady task'.phase) (visitContent task expand c)
      (visitContent task' expand' c)
  | none => lockstep_pure none
  | some e => lockstep_visit htasks hmakes hexpand e

end

theorem lockstep_visitWithin (htasks : Task.Paired engine task task') (limit : Nat) (e : Element) :
    Lockstep engine (IsSteady task'.phase) (visitWithin task limit e)
      (visitWithin task' limit e) := by
  induction limit generalizing e with
  | zero => exact lockstep_throw .tooDeep
  | succ limit ih => exact lockstep_visit htasks (makes_visitWithin limit) ih e

end Element

/-- Walks over a page that start abreast stay abreast and have the same result. -/
theorem Walk.abreast_wholePage {engine : Engine} {s s' t t' : WalkState} {limit : Nat}
    {r r' : Except EngineError (Option Answer)} (htasks : Task.Paired engine task task')
    (hst : { s with path := .empty, journal := [] }.Abreast engine
      { t with path := .empty, journal := [] })
    (hrun : (wholePage task limit).runFrom s = (r, s'))
    (hrun' : (wholePage task' limit).runFrom t = (r', t'))
    (henters : EntersOnly (Element.IsSteady task'.phase) s'.journal) :
    r' = r ∧ s'.Abreast engine t' := by
  rw [runFrom_wholePage] at hrun
  rw [runFrom_wholePage] at hrun'
  have hroot : s.scope.page.template.root = t.scope.page.template.root := by
    rw [show t.scope = s.scope from hst.scope]
  have hfollows := (Element.lockstep_visitWithin htasks limit s.scope.page.template.root).follows
    _ _ hst
  rw [hrun, hroot, hrun'] at hfollows
  exact hfollows henters

end PageEngine
