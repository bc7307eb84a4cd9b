import Mathlib.Data.List.Infix
import PageEngine.Proofs.Action.Invocation
import PageEngine.Proofs.Page.History

/-! Which elements answer a request. An action may change everything that comes after it, but
the paths of a walk only grow: past the sender, or out of it, no other element stands on the
path of the sender. -/

namespace PageEngine

variable {task : Task} {limit : Nat} {start stop : WalkState}
variable {r result : Except EngineError (Option Answer)} {v v' : Entry} {a : Association}

theorem Element.performed?_eq_some {path : ElementPath} {e : Element} :
    e.performed? task path = some a ↔
      e.button? = some a ∧ task.request.hasFormValue path.text = true ∨
        e.button? = none ∧ e.target? = some a ∧ task.sender = some path := by
  unfold performed?
  cases e.button? with
  | some b => simp [and_comm]
  | none => simp [and_comm]

/-- What was entered tries to perform an association, whatever comes of it. -/
def Entry.Tries (v : Entry) (a : Association) (journal : List Step) : Prop :=
  .perform a :: v.events <:+ journal

/-- What was entered performs an association. From the components as they were then, its visit
does what the association comes to and has the result of that. The walk goes on from there without
a result, and otherwise ends with it. -/
def Entry.Performs (v : Entry) (task : Task) (a : Association)
    (result r : Except EngineError (Option Answer)) (stop : WalkState) : Prop :=
  ∃ (s s' : WalkState) (outcome : Except EngineError Outcome),
    (s.entered task v.element).journal = v.events ∧
      Visits task (.body v.element) (s.entered task v.element) result s' ∧
      s'.journal = .perform a :: v.events ∧ v.element.Runs v.scope a outcome s'.scope ∧
      task.Answers s.memory outcome result ∧ s'.Extends stop ∧ (result ≠ .ok none → r = result)

theorem Entry.Performs.tries (h : v.Performs task a result r stop) : v.Tries a stop.journal := by
  obtain ⟨s, s', outcome, -, -, hjournal, -, -, hend, -⟩ := h
  rw [Tries, ← hjournal]
  exact hend.journal

/-- What has a result does not stay on the page. -/
theorem Entry.Performs.stays_iff (h : v.Performs task a result r stop) :
    v.element.stays v.scope a = true ↔ result = .ok none := by
  obtain ⟨s, s', outcome, -, -, -, hruns, hanswers, -, -⟩ := h
  exact hruns.stays_iff_of_answers hanswers

/-- No tag lets the walk into its content that has something to perform itself. -/
theorem Tag.not_opens_of_performed {site : Site} {t : Tag} {c : Option Element}
    {path : ElementPath} {scope : Scope} (hphase : task.phase = .invokeAction)
    (ht : t.wraps = true) (ha : (Element.tag site t c).performed? task path = some a) :
    ¬t.Opens task path scope := by
  have hnone (hother : (Element.tag site t c).target? = none)
      (hbutton : (Element.tag site t c).button? = none) : False := by
    rw [Element.performed?_eq_none hbutton hother] at ha
    cases ha
  intro hopens
  cases t with
  | hyperlink target bindings =>
    rcases Element.performed?_eq_some.1 ha with ⟨hbutton, -⟩ | ⟨-, -, hsender⟩
    · cases hbutton
    · exact hopens hphase hsender
  | form action bindings =>
    obtain ⟨-, rfl⟩ := hopens hphase
    exact hnone rfl rfl
  | conditional condition negate => exact hnone rfl rfl
  | container name bindings => exact hnone rfl rfl
  | marker describe value => exact hnone rfl rfl
  | _ => cases ht

/-- The visit of an element that answers the request performs its association. -/
theorem Visits.performs {e : Element} {s s' : WalkState} (h : Visits task (.body e) s r s')
    (hphase : task.phase = .invokeAction) (ha : e.performed? task s.path = some a) :
    s'.journal = .perform a :: s.journal ∧
      ∃ outcome, e.Runs s.scope a outcome s'.scope ∧ task.Answers s.memory outcome r := by
  have hnone (hbutton : e.button? = none) (htarget : e.target? = none) :
      e.performed? task s.path ≠ some a := by
    rw [Element.performed?_eq_none hbutton htarget]
    exact nofun
  cases h with
  | text h => exact absurd ha (hnone rfl rfl)
  | group h => exact absurd ha (hnone rfl rfl)
  | own hrun h => exact Tag.performsFrom_visit hphase ha r s' hrun
  | wrap ht hopens => exact absurd hopens (Tag.not_opens_of_performed hphase ht ha)
  | repetition h => exact absurd ha (hnone rfl rfl)
  | slot => exact absurd ha (hnone rfl rfl)
  | reference h => exact absurd ha (hnone rfl rfl)
  | switch => exact absurd ha (hnone rfl rfl)

namespace Dispatched

variable {journal : List Step}

theorem performed_of_tries (h : Dispatched task journal) (hperform : v.Tries a journal) :
    v.element.performed? task v.standing.path = some a := by
  obtain ⟨v', hevents, ha⟩ := (h.of_suffix hperform).entered_of_perform
  rwa [Entry.eq_of_events hevents] at ha

end Dispatched

theorem EndsWith.nonePending {journal : List Step} (h : EndsWith task journal r) :
    NonePending task journal := by
  match r, h with
  | .ok none, h => exact h.1.nonePending
  | .ok (some answer), h => exact h.1.nonePending
  | .error e, h => exact h

/-- What is tried in an invocation of a page is performed. -/
theorem Walk.performs_of_tries (hphase : task.phase = .invokeAction)
    (hrun : (Walk.wholePage task limit).runFrom start = (r, stop)) (h : v.Tries a stop.journal) :
    ∃ result, v.Performs task a result r stop := by
  have ha := (dispatched_wholePage hphase hrun).1.performed_of_tries h
  obtain ⟨s, s', result, hentered, hvisits, hend, hresult⟩ :=
    ((visits_wholePage hrun).visitedIn ((List.suffix_cons ..).trans h)).resolve_left
      fun hnone => by cases List.suffix_nil.1 hnone
  have hpath := (Entry.of_entered (v := v) hentered.symm).2
  have hscope := Entry.scope_of_entered (v := v) hentered.symm
  obtain ⟨hjournal, outcome, hruns, hanswers⟩ := hvisits.performs hphase (hpath ▸ ha)
  exact ⟨result, s, s', outcome, hentered, hvisits, hjournal.trans (congrArg _ hentered),
    hscope ▸ hruns, hanswers, hend, hresult⟩

namespace LinkPage

/-- An action that marks a key. -/
def marking (key : String) : Action := fun values => (values.write key (.bool true), .stay)

def component : ComponentClass :=
  { ComponentClass.plain [] with
    actions := [("open", marking "opened"), ("save", marking "saved")] }

/-- A link around an address on the same path, and a button. -/
def engine : Engine :=
  ⟨.standard, [("Page", component)], .memory [("Page.html",
    "<wo:link action=\"$open\"><wo:actionURL action=\"$open\"/></wo:link><wo:submit action=\"$save\"/>")]⟩

def page : WalkState :=
  .ofPage (Memory.empty.load engine "Page") ⟨0⟩
    (.ofClass "Page" component (engine.templateOf "Page"))

/-- A request from the link that also sends the button. -/
def invoke : Task :=
  ⟨engine, { Request.ofPath "POST" "" with formValues := [("1", ["Save"])] }, some ⟨[0]⟩,
    .invokeAction⟩

end LinkPage

end PageEngine
