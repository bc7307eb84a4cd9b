import PageEngine.Component.Class
import PageEngine.Error
import PageEngine.Template.Basic

/-! A live component: its values, its template, and the components that it has placed on the
page so far. A placed component is kept under the written path of its tag, so that the tag
finds it again in later phases and requests. -/

namespace PageEngine

/-- What a tag asks for: a component by its name, and what it hands over to it. -/
structure Reference where
  name : String
  /-- The bindings on the tag. -/
  bindings : Associations
  /-- What the tag is wrapped around. -/
  content : Option Element
  deriving Inhabited

structure Instance where
  name : String
  kind : ComponentClass
  values : Entries
  template : Template
  /-- The placed components by path. -/
  children : List (String × Instance)
  /-- The bindings on the tag that placed this component. -/
  bindings : Associations
  /-- What that tag is wrapped around. -/
  content : Option Element

namespace Instance

/-- A new component with no caller. -/
def ofClass (name : String) (kind : ComponentClass) (template : Template) : Instance :=
  ⟨name, kind, kind.initial, template, [], [], none⟩

instance : Inhabited Instance := ⟨ofClass "" default default⟩

/-- The reference that placed a component; a page has neither bindings nor content. -/
def reference (c : Instance) : Reference :=
  ⟨c.name, c.bindings, c.content⟩

def binding? (c : Instance) (name : String) : Option Association :=
  Dictionary.get? name c.bindings

def child? (c : Instance) (key : String) : Option Instance :=
  Dictionary.get? key c.children

/-- Store a placed component. -/
def addChild (c : Instance) (key : String) (child : Instance) : Instance :=
  { c with children := Dictionary.insert key child c.children }

def removeChild (c : Instance) (key : String) : Instance :=
  { c with children := Dictionary.erase key c.children }

/-- Store the value of a key. -/
def put (c : Instance) (key : String) (v : Value) : Instance :=
  { c with values := Dictionary.insert key v c.values }

/-- Store a value at a key path. -/
def write (c : Instance) (path : String) (v : Value) : Instance :=
  { c with values := c.values.write path v }

/-- Perform an action on the values. -/
def perform (c : Instance) (name : String) : Except LookupError Outcome × Instance :=
  match Dictionary.get? name c.kind.actions with
  | none => (.error (.action c.kind.label name), c)
  | some action =>
    let (values, outcome) := action c.values
    (.ok outcome, { c with values })

end Instance

end PageEngine
