import PageEngine.Element.Basic
import PageEngine.Error

/-! The kinds of elements and the bindings each of them takes. A kind takes its own bindings
out of those written on the tag; where the rest has a meaning it becomes attributes. Kinds
without a body drop their content. -/

namespace PageEngine

/-- Taking bindings out of those that are written. -/
abbrev BindingReader := StateT Associations (Except BindingError)

namespace BindingReader

def optional (binding : String) : BindingReader (Option Association) :=
  modifyGet (Dictionary.take binding)

/-- A binding that the element cannot do without. -/
def required (element binding : String) : BindingReader Association := do
  match ← optional binding with
  | some a => return a
  | none => throw (.missing element binding)

/-- The bindings that were not taken. -/
def rest : BindingReader Associations := get

/-- Exactly one of `list` and `count`. -/
def repetitionSource (element : String) : BindingReader RepetitionSource := do
  match ← optional "list", ← optional "count" with
  | some items, none => return .list items
  | none, some times => return .count times
  | none, none => throw (.missingOneOf element "list, count")
  | some _, some _ => throw (.conflicting element "list, count")

/-- Exactly one of `action`, `pageName` and `href`. -/
def linkTarget (element : String) : BindingReader LinkTarget := do
  match ← optional "action", ← optional "pageName", ← optional "href" with
  | some action, none, none => return .action action
  | none, some name, none => return .pageName name
  | none, none, some url => return .href url
  | none, none, none => throw (.missingOneOf element "action, pageName, href")
  | _, _, _ => throw (.conflicting element "action, pageName, href")

def field (element : String) : BindingReader FieldBindings := do
  return {
    value := ← required element "value"
    name := ← optional "name"
    disabled := ← optional "disabled"
    attributes := ← rest }

def popUp (element : String) : BindingReader PopUpBindings := do
  return {
    list := ← required element "list"
    item := ← optional "item"
    index := ← optional "index"
    displayString := ← optional "displayString"
    noSelection := ← optional "noSelectionString"
    selection := ← optional "selection"
    selections := ← optional "selections"
    multiple := ← optional "multiple"
    name := ← optional "name"
    disabled := ← optional "disabled"
    attributes := ← rest }

end BindingReader

/-- The kinds of elements that a name can be registered for. -/
inductive Kind where
  | string
  | conditional
  | repetition
  | switch
  | slot
  | container
  | void
  | hyperlink
  | form
  | submitButton
  | textField
  | textArea
  | popUp
  | actionUrl
  | marker (describe : Standing → String)

namespace Kind

open BindingReader in
/-- Take the bindings of a kind; `element` is the written name, for errors. -/
def readTag (element : String) : Kind → BindingReader Tag
  | .string => do
    return .string (← required element "value") (← optional "valueWhenEmpty")
      (← optional "escapeHTML")
  | .conditional => do
    return .conditional (← required element "condition") (← optional "negate")
  | .repetition => do
    return .repetition (← repetitionSource element) (← optional "item") (← optional "index")
  | .switch => do
    return .switch (← required element "componentName") (← rest)
  | .slot => return .slot
  | .container => do
    return .container (← required element "elementName") (← rest)
  | .void => do
    return .void (← required element "elementName") (← rest)
  | .hyperlink => do
    return .hyperlink (← linkTarget element) (← rest)
  | .form => do
    return .form (← optional "action") (← rest)
  | .submitButton => do
    return .submitButton (← required element "action") (← optional "value") (← rest)
  | .textField => return .textField (← BindingReader.field element)
  | .textArea => return .textArea (← BindingReader.field element)
  | .popUp => return .popUp (← BindingReader.popUp element)
  | .actionUrl => return .actionUrl (← required element "action")
  | .marker describe => return .marker describe (← optional "value")

/-- Whether elements of the kind have a body. -/
def hasContent : Kind → Bool
  | .string => false
  | .conditional => true
  | .repetition => true
  | .switch => true
  | .slot => false
  | .container => true
  | .void => false
  | .hyperlink => true
  | .form => true
  | .submitButton => false
  | .textField => false
  | .textArea => false
  | .popUp => false
  | .actionUrl => false
  | .marker _ => true

/-- The element of a kind with the bindings written at a site. -/
def element (kind : Kind) (site : Site) (name : String) (bindings : Associations)
    (content : Option Element) : Except BindingError Element :=
  ((readTag name kind).run' bindings).map fun tag =>
    .tag site tag (if kind.hasContent then content else none)

end Kind

end PageEngine
