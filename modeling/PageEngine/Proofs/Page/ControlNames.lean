import Mathlib.Data.List.Infix
import PageEngine.Proofs.Action.Descent
import PageEngine.Proofs.Element.Unnamed
import PageEngine.Proofs.Page.History
import PageEngine.Proofs.Page.Order

/-! The names of controls. A control without a name of its own prints the path where it stands
as its name. A rendering visits controls on paths that lead apart, so that no two of them carry
the same name. -/

namespace PageEngine

open Walk

variable {task : Task} {s s' : WalkState} {r : Except EngineError (Option Answer)}

/-- The values of all attributes of a name. -/
def Html.valuesOf (key : String) (attributes : Html.Attributes) : List Value :=
  (attributes.filter (·.1 == key)).map (·.2)

namespace Html

variable {key : String}

end Html

/-- The first thing printed between two states is a start tag that carries just this name. -/
def PrintsName (name : String) (s s' : WalkState) : Prop :=
  ∃ (tag : String) (attributes : Html.Attributes) (isVoid : Bool),
    Html.valuesOf "name" attributes = [.text name] ∧
      (s.response.content ++ Html.startTag tag attributes isVoid).toList <+:
        s'.response.content.toList

namespace PrintsName

variable {name tag : String} {attributes : Html.Attributes} {isVoid : Bool}

theorem of_print (h : Html.valuesOf "name" attributes = [.text name]) {text : String}
    (htext : (Html.startTag tag attributes isVoid).toList <+: text.toList) (s : WalkState) :
    PrintsName name s ((print text).runFrom s).2 := by
  refine ⟨tag, attributes, isVoid, h, ?_⟩
  rw [runFrom_print, Response.content_append, String.toList_append, String.toList_append]
  exact (List.prefix_append_right_inj _).2 htext

theorem mono {t : WalkState} (h : PrintsName name s s') (hs : s'.Extends t) :
    PrintsName name s t := by
  obtain ⟨tag, attributes, isVoid, hname, hprinted⟩ := h
  exact ⟨tag, attributes, isVoid, hname, hprinted.trans hs.content⟩

end PrintsName

namespace FieldBindings

variable {b : FieldBindings}

end FieldBindings

/-- An element that visits nothing inside does what its tag does by itself. -/
theorem Visits.own_of_isBare {site : Site} {t : Tag} {c : Option Element}
    (h : Visits task (.body (.tag site t c)) s r s') (ht : t.isBare = true) :
    ∃ (expand : Element → Walk (Option Answer)) (inner : Walk (Option Answer)),
      (t.visit task expand site c inner).runFrom s = (r, s') := by
  cases h with
  | own hrun h => exact ⟨_, _, hrun⟩
  | wrap hwraps => exact absurd hwraps (by rw [Tag.wraps_of_isBare ht]; decide)
  | repetition h => cases ht
  | slot hcontent hsuspend h hresume => cases ht
  | reference h => cases ht
  | switch hname hindex h => cases ht

/-- The visit of an element prints a start tag first that carries just this name, and that stays
in the response. -/
def Entry.PrintsName (task : Task) (v : Entry) (name : String) (stop : WalkState) : Prop :=
  ∃ (s s' : WalkState) (r : Except EngineError (Option Answer)),
    (s.entered task v.element).journal = v.events ∧
      Visits task (.body v.element) (s.entered task v.element) r s' ∧
      PageEngine.PrintsName name s s' ∧ s'.Extends stop

namespace TwicePage

/-- A page with a field in a content that its component shows twice. -/
def engine : Engine :=
  ⟨.standard, [], .memory [("Twice.html", "<wo:content/><wo:content/>"),
    ("Page.html", "<wo:Twice><wo:textfield value=\"$name\"/></wo:Twice>")]⟩

def render : Task := ⟨engine, .ofPath "GET" "", none, .render⟩

def rendered : WalkState := (WalkState.ofTemplate engine "Page" []).after render

end TwicePage

end PageEngine
