import PageEngine.Proofs.Page.Order

/-! The order of events in an invocation. An element that answers the request performs its
association as soon as it is entered and is left right after; any other element performs
nothing. Once something was performed that does not stay on the page, nothing is entered any
more. What follows for whole journals is read off the way they are put together. -/

namespace PageEngine

/-- The association that an element follows when the request was sent from it. -/
def Element.target? : Element → Option Association
  | .tag _ (.hyperlink (.action a) _) _ => some a
  | .tag _ (.hyperlink (.pageName a) _) _ => some a
  | .tag _ (.form action _) _ => action
  | .tag _ (.actionUrl a) _ => some a
  | _ => none

/-- The action of a button. -/
def Element.button? : Element → Option Association
  | .tag _ (.submitButton a _ _) _ => some a
  | _ => none

/-- What an element performs where it stands: a button that was pressed its action, and the
sender of the request its target. -/
def Element.performed? (task : Task) (path : ElementPath) (e : Element) : Option Association :=
  match e.button? with
  | some a => if task.request.hasFormValue path.text then some a else none
  | none => if task.sender == some path then e.target? else none

/-- Whether the request stays on the page when an element performs an association. -/
def Element.stays (e : Element) (scope : Scope) (a : Association) : Bool :=
  match e with
  | .tag _ (.hyperlink (.pageName _) _) _ => (scope.read a scope.depth).display?.isNone
  | _ =>
    match (scope.invoke a scope.depth).1 with
    | .ok .stay => true
    | _ => false

/-- Something was performed that does not stay on the page. -/
def Answered (journal : List Step) : Prop :=
  ∃ e standing scope earlier a,
    .perform a :: .enter e standing scope :: earlier <:+ journal ∧ e.stays scope a = false

theorem Answered.mono {journal journal' : List Step} (h : Answered journal)
    (hs : journal <:+ journal') : Answered journal' := by
  obtain ⟨e, standing, scope, earlier, a, hperform, hstays⟩ := h
  exact ⟨e, standing, scope, earlier, a, hperform.trans hs, hstays⟩

/-! ### Journals of invocations -/

/-- Steps that neither enter an element nor perform anything. -/
def Step.isCalm : Step → Bool
  | .enter .. => false
  | .perform _ => false
  | _ => true

theorem Answered.of_cons {step : Step} {journal : List Step} (h : Answered (step :: journal))
    (hstep : ∀ a, step ≠ .perform a) : Answered journal := by
  obtain ⟨e, standing, scope, earlier, a, hperform, hstays⟩ := h
  rcases List.suffix_cons_iff.1 hperform with heq | hperform
  · exact absurd (List.cons.inj heq).1.symm (hstep a)
  · exact ⟨e, standing, scope, earlier, a, hperform, hstays⟩

/-- No element was entered last that has still to perform something. -/
def NonePending (task : Task) : List Step → Prop
  | .enter e standing _ :: _ => e.performed? task standing.path = none
  | _ => True

/-- Anything can come next, apart from an action. -/
def Ready (task : Task) : List Step → Prop
  | .perform _ :: _ => False
  | journal => NonePending task journal

/-- The journals of invocations, step by step. -/
inductive Dispatched (task : Task) : List Step → Prop
  | nil : Dispatched task []
  | calm {step : Step} {journal : List Step} (h : Dispatched task journal)
    (hready : Ready task journal) (hstep : step.isCalm = true) : Dispatched task (step :: journal)
  | enter {e : Element} {standing : Standing} {scope : Scope} {journal : List Step}
    (h : Dispatched task journal) (hready : Ready task journal) (hopen : ¬Answered journal) :
    Dispatched task (.enter e standing scope :: journal)
  | perform {e : Element} {standing : Standing} {scope : Scope} {earlier : List Step}
    {a : Association} (h : Dispatched task (.enter e standing scope :: earlier))
    (ha : e.performed? task standing.path = some a) :
    Dispatched task (.perform a :: .enter e standing scope :: earlier)
  | leave {a : Association} {earlier : List Step} (h : Dispatched task (.perform a :: earlier)) :
    Dispatched task (.leave :: .perform a :: earlier)

namespace Dispatched

variable {task : Task} {journal earlier : List Step} {step : Step} {a : Association} {v v' : Entry}

theorem of_suffix (h : Dispatched task journal) (hs : earlier <:+ journal) :
    Dispatched task earlier := by
  induction h with
  | nil =>
    rw [List.suffix_nil.1 hs]
    exact .nil
  | calm h hready hstep ih =>
    rcases List.suffix_cons_iff.1 hs with rfl | hs
    · exact .calm h hready hstep
    · exact ih hs
  | enter h hready hopen ih =>
    rcases List.suffix_cons_iff.1 hs with rfl | hs
    · exact .enter h hready hopen
    · exact ih hs
  | perform h ha ih =>
    rcases List.suffix_cons_iff.1 hs with rfl | hs
    · exact .perform h ha
    · exact ih hs
  | leave h ih =>
    rcases List.suffix_cons_iff.1 hs with rfl | hs
    · exact .leave h
    · exact ih hs

/-- What is performed is what the element entered last performs. -/
theorem entered_of_perform (h : Dispatched task (.perform a :: earlier)) :
    ∃ v : Entry, v.events = earlier ∧ v.element.performed? task v.standing.path = some a := by
  cases h with
  | calm h hready hstep => cases hstep
  | @perform e standing scope earlier a h ha => exact ⟨⟨e, standing, scope, earlier⟩, rfl, ha⟩

end Dispatched

end PageEngine
