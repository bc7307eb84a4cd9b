import PageEngine.Value.KeyPath
import PageEngine.Web.Response

/-! Component classes: the values that a new component starts with, and the actions it can
perform. An action changes the values of its own component and says what the answer to the
request should be. -/

namespace PageEngine

/-- What an action asks for. -/
inductive Outcome where
  /-- Show the same page again. -/
  | stay
  | pageNamed (name : String)
  /-- A new page, with its own values or as its class makes it. -/
  | page (name : String) (values : Option Entries)
  | respond (response : Response)
  deriving Repr, Inhabited

/-- Change the values of a component and decide on the answer. -/
abbrev Action := Entries → Entries × Outcome

structure ComponentClass where
  /-- The name that error messages use. -/
  label : String
  /-- Whether bound values are copied back to the caller after every visit. -/
  synchronizes : Bool
  initial : Entries
  actions : Dictionary Action

namespace ComponentClass

/-- A class without actions, for pages and components that are only a template. -/
def plain (initial : Entries) : ComponentClass :=
  ⟨"ng_appserver::component::MapComponent", true, initial, []⟩

instance : Inhabited ComponentClass := ⟨plain []⟩

def IsPlain (c : ComponentClass) : Prop :=
  c.synchronizes = true ∧ c.actions = []

end ComponentClass

end PageEngine
