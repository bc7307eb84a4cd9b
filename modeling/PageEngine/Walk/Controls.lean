import PageEngine.Walk.State

/-! Elements without a body: texts, fields, buttons and selections. A field that has no
name of its own is named by its path. -/

namespace PageEngine

namespace Walk

/-- The bound name of a control, or else its path. -/
def controlName (name : Option Association) : Walk String := do
  match (← read? name).bind Value.display? with
  | some text => return text
  | none => pathText

end Walk

open Walk

namespace Tag

/-- Print a value as text, escaped unless that is turned off. -/
def printShown (escapes : Option Association) (shown : Value) : Walk Unit := do
  match shown.display? with
  | none => return ()
  | some text =>
    match ← read? escapes with
    | none => print (Html.escape text)
    | some v => print (if v.isTrue then Html.escape text else text)

/-- Print a value, or the fallback in place of null and of the empty text. -/
def renderString (value : Association) (whenEmpty escapes : Option Association) : Walk Unit := do
  let written ← read value
  match written, whenEmpty with
  | .null, some fallback => printShown escapes (← read fallback)
  | .text "", some fallback => printShown escapes (← read fallback)
  | _, _ => printShown escapes written

/-- Print an HTML element without content, if it has a name. -/
def renderVoid (elementName : Association) (bindings : Associations) : Walk Unit := do
  match (← read elementName).display? with
  | none => return ()
  | some name => print (Html.startTag name (← attributes bindings) true)

end Tag

namespace FieldBindings

/-- Write the submitted value, unless the field is disabled or was not sent. -/
def takeValue (task : Task) (b : FieldBindings) : Walk Unit := do
  if ← flag b.disabled then return ()
  match ← formValue task (← controlName b.name) with
  | none => return ()
  | some v => write b.value v

/-- The attribute of a disabled field. -/
def disabledAttribute (b : FieldBindings) : Walk Html.Attributes := do
  return if ← flag b.disabled then [("disabled", .bool true)] else []

def renderField (b : FieldBindings) : Walk Unit := do
  let own : Html.Attributes := [("type", .text "text"),
    ("name", .text (← controlName b.name)), ("value", ← read b.value)]
  let more := (← b.disabledAttribute) ++ (← Walk.attributes b.attributes)
  print (Html.startTag "input" (own ++ more) true)

def renderArea (b : FieldBindings) : Walk Unit := do
  let own : Html.Attributes := [("name", .text (← controlName b.name))]
  let tag := Html.startTag "textarea"
    (own ++ (← b.disabledAttribute) ++ (← Walk.attributes b.attributes)) false
  let text := (← read b.value).display
  print (tag ++ Html.escape text ++ Html.endTag "textarea")

end FieldBindings

namespace Tag

/-- Fires when its own path was submitted as a name. -/
def invokeSubmit (task : Task) (action : Association) : Walk (Option Answer) := do
  if task.request.hasFormValue (← pathText) then invoke task action else return none

def renderSubmit (value : Option Association) (bindings : Associations) : Walk Unit := do
  let own : Html.Attributes := [("type", .text "submit"), ("name", .text (← pathText)),
    ("value", (← read? value).getD .null)]
  print (Html.startTag "input" (own ++ (← attributes bindings)) true)

end Tag

namespace PopUpBindings

/-- The option value that selects nothing. -/
def noSelectionValue : String := "NO_SELECTION_OPTION_VALUE"

/-- The item that a submitted option value points at. -/
def resolve (items : List Value) (name option : String) : Except StateError Value :=
  match (Text.readUnsigned (Text.trim option.toList)).bind (items[·]?) with
  | some item => .ok item
  | none => .error (.invalidSelection name option)

/-- The items of the submitted option values, in order. -/
def resolveAll (items : List Value) (name : String) : List String → Except StateError (List Value)
  | [] => .ok []
  | option :: rest =>
    if option = noSelectionValue then resolveAll items name rest
    else do return (← resolve items name option) :: (← resolveAll items name rest)

def liftState {α : Type} (x : Except StateError α) : Walk α :=
  match x with
  | .ok a => return a
  | .error e => throw (.state e)

/-- Write the chosen items as a list, if any option was sent. -/
def takeSelections (task : Task) (b : PopUpBindings) (name : String) : Walk Unit := do
  match b.selections, task.request.formValuesOf name with
  | none, _ => return ()
  | some _, [] => return ()
  | some selections, options =>
    let items := (← read b.list).items
    write selections (.list (← liftState (resolveAll items name options)))

/-- Write the chosen item; nothing chosen is null. -/
def takeSelection (task : Task) (b : PopUpBindings) (name : String) : Walk Unit := do
  match b.selection with
  | none => return ()
  | some selection =>
    match ← formValue task name with
    | none => return ()
    | some (.text option) =>
      if option = noSelectionValue then write selection .null
      else write selection (← liftState (resolve (← read b.list).items name option))
    | some _ => write selection .null

def takeValue (task : Task) (b : PopUpBindings) : Walk Unit := do
  if ← flag b.disabled then return ()
  let name ← controlName b.name
  if ← flag b.multiple then b.takeSelections task name else b.takeSelection task name

/-- Whether an item is chosen. -/
def isSelected (b : PopUpBindings) (multiple : Bool) (item : Value) : Walk Bool := do
  if multiple then
    match ← read? b.selections with
    | some (.list chosen) => return chosen.any item.equal
    | _ => return false
  else
    match ← read? b.selection with
    | some v => return v.equal item
    | none => return false

/-- Print the options for the items from the index `i` on. -/
def renderOptions (b : PopUpBindings) (multiple : Bool) (i : Nat) : List Value → Walk Unit
  | [] => return ()
  | item :: rest => do
    write? b.index (.ofNat i)
    write? b.item item
    let label := ((← read? b.displayString).getD item).display
    let own : Html.Attributes := [("value", .ofNat i),
      ("selected", .bool (← b.isSelected multiple item))]
    print (Html.startTag "option" own false ++ Html.escape label ++ Html.endTag "option")
    b.renderOptions multiple (i + 1) rest

def render (b : PopUpBindings) : Walk Unit := do
  let multiple ← flag b.multiple
  let name : Html.Attributes := [("name", .text (← controlName b.name))]
  let state : Html.Attributes := [("multiple", .bool multiple),
    ("disabled", .bool (← flag b.disabled))]
  print (Html.startTag "select" (name ++ (← Walk.attributes b.attributes) ++ state) false)
  match ← read? b.noSelection with
  | none => pure ()
  | some label =>
    print (Html.startTag "option" [("value", .text noSelectionValue)] false ++
      Html.escape label.display ++ Html.endTag "option")
  b.renderOptions multiple 0 (← read b.list).items
  write? b.item .null
  print (Html.endTag "select")

end PopUpBindings

end PageEngine
