import PageEngine.ElementPath
import PageEngine.Association

/-! The elements that a template is resolved into. A tag is the behaviour of one element
together with its bindings; what it is wrapped around is its content. A site tells where in
which template a tag was written, so that two tags are the same only if they stand at the
same site. -/

namespace PageEngine

/-- A place in a template: child positions from the top down. -/
structure Site where
  template : String
  address : List Nat
  deriving DecidableEq, Repr, Inhabited

/-- The three walks that answer a request. -/
inductive Phase where
  | takeValues
  | invokeAction
  | render
  deriving DecidableEq, Repr

/-- What can be seen from an element while it is visited. -/
structure Standing where
  phase : Phase
  path : ElementPath
  inForm : Bool
  /-- The number of components between the page and the current one. -/
  depth : Nat
  /-- The name of the current component. -/
  component : String
  /-- Whether the request was sent from here. -/
  isSender : Bool
  deriving DecidableEq, Repr

/-- How often a repetition visits its content. -/
inductive RepetitionSource where
  | list (items : Association)
  | count (times : Association)
  deriving Repr

/-- Where a hyperlink leads. -/
inductive LinkTarget where
  | action (action : Association)
  | pageName (name : Association)
  | href (url : Association)
  deriving Repr

/-- The bindings that fields share. -/
structure FieldBindings where
  value : Association
  name : Option Association
  disabled : Option Association
  attributes : Associations
  deriving Repr

/-- The bindings of a selection from a list. -/
structure PopUpBindings where
  list : Association
  item : Option Association
  index : Option Association
  displayString : Option Association
  noSelection : Option Association
  selection : Option Association
  selections : Option Association
  multiple : Option Association
  name : Option Association
  disabled : Option Association
  attributes : Associations
  deriving Repr

/-- The behaviour of an element. -/
inductive Tag where
  /-- A value as text. -/
  | string (value : Association) (whenEmpty escapes : Option Association)
  | conditional (condition : Association) (negate : Option Association)
  | repetition (source : RepetitionSource) (item index : Option Association)
  /-- The component whose name is found on the way. -/
  | switch (componentName : Association) (bindings : Associations)
  /-- What the caller put between the tags of the current component. -/
  | slot
  /-- An HTML element with content. -/
  | container (elementName : Association) (attributes : Associations)
  /-- An HTML element without content. -/
  | void (elementName : Association) (attributes : Associations)
  | hyperlink (target : LinkTarget) (attributes : Associations)
  | form (action : Option Association) (attributes : Associations)
  | submitButton (action : Association) (value : Option Association) (attributes : Associations)
  | textField (bindings : FieldBindings)
  | textArea (bindings : FieldBindings)
  | popUp (bindings : PopUpBindings)
  /-- The address of the element itself. -/
  | actionUrl (action : Association)
  /-- A component named by the tag. -/
  | component (name : String) (bindings : Associations)
  /-- A mark that tells where the walk stands: printed when rendering, added to a bound value
  before. -/
  | marker (describe : Standing → String) (value : Option Association)

namespace Tag

/-- Structural tags only decide whether and how often their content is visited. -/
def isStructural : Tag → Bool
  | .conditional .. => true
  | .repetition .. => true
  | .switch .. => true
  | .slot => true
  | _ => false

end Tag

inductive Element where
  | text (text : String)
  /-- Children on a branch of their own, one index each. -/
  | group (children : List Element)
  | tag (site : Site) (tag : Tag) (content : Option Element)

namespace Element

instance : Inhabited Element := ⟨.group []⟩

/-- What a tag is wrapped around: nothing, one element, or several on a branch. -/
def content? : List Element → Option Element
  | [] => none
  | [e] => some e
  | es => some (.group es)

mutual

/-- The number of tags outside of other tags. -/
def tagCount : Element → Nat
  | .text _ => 0
  | .group children => tagCountAll children
  | .tag .. => 1

def tagCountAll : List Element → Nat
  | [] => 0
  | e :: es => tagCount e + tagCountAll es

end

mutual

/-- The number of structural tags outside of other tags. -/
def structuralCount : Element → Nat
  | .text _ => 0
  | .group children => structuralCountAll children
  | .tag _ t _ => if t.isStructural then 1 else 0

def structuralCountAll : List Element → Nat
  | [] => 0
  | e :: es => structuralCount e + structuralCountAll es

end

end Element

end PageEngine
