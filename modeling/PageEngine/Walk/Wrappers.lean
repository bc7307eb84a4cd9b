import PageEngine.Text.Blank
import PageEngine.Walk.Component

/-! Elements around a content. Conditionals, containers, hyperlinks and forms leave the path
as it is; a repetition gives its content a branch with one index per turn. A form is the
sender of its requests: it either performs its own action or looks for the pressed button
inside. -/

namespace PageEngine

open Walk

/-- The number of turns that a value asks for: numbers and numerals without their fraction;
anything else, and anything negative, is none. -/
def iterationCount : Value → Nat
  | .number (.whole i) => i.toNat
  | .number (.double d) => magnitude d
  | .text text =>
    let cs := Text.trim text.toList
    match (Text.readUnsigned cs).filter (· ≤ limit), (Decimal.read cs).bind Decimal.toDouble? with
    | some n, _ => n
    | none, some d => magnitude d
    | none, none => 0
  | _ => 0
where
  /-- The largest number of turns. -/
  limit : Nat := 0xFFFFFFFFFFFFFFFF
  magnitude (d : Double) : Nat := if d.negative then 0 else min d.truncate limit

namespace Tag

variable {α : Type}

/-- Whether a conditional shows its content. -/
def isVisible (condition : Association) (negate : Option Association) : Walk Bool := do
  return (← read condition).isTrue != (← flag negate)

/-- One turn of a repetition: its index and its item are stored, and the content is visited. -/
def turn (item index : Option Association) (inner : Walk (Option α)) (i : Nat) (v : Value) :
    Walk (Option α) := do
  write? index (.ofNat i)
  write? item v
  inner

/-- The turns of a repetition over items, from the index `i` on, up to the first result. -/
def repeatItems (item index : Option Association) (inner : Walk (Option α)) (i : Nat) :
    List Value → Walk (Option α)
  | [] => return none
  | v :: rest => do
    match ← turn item index inner i v with
    | some result => return some result
    | none =>
      nextSibling
      repeatItems item index inner (i + 1) rest

/-- A number of turns from the index `i` on, up to the first result. No item is stored. -/
def repeatTimes (index : Option Association) (inner : Walk (Option α)) (i : Nat) :
    Nat → Walk (Option α)
  | 0 => return none
  | n + 1 => do
    match ← turn none index inner i .null with
    | some result => return some result
    | none =>
      nextSibling
      repeatTimes index inner (i + 1) n

/-- Counted turns are turns over as many nulls. -/
theorem repeatTimes_eq (index : Option Association) (inner : Walk (Option α)) (i n : Nat) :
    repeatTimes index inner i n = repeatItems none index inner i (List.replicate n .null) := by
  induction n generalizing i with
  | zero => rfl
  | succ n ih => simp only [repeatTimes, List.replicate_succ, repeatItems, ih]

/-- All turns of a repetition. Items are stored only from a list. -/
def turns (source : RepetitionSource) (item index : Option Association)
    (inner : Walk (Option α)) : Walk (Option α) :=
  match source with
  | .list a => do
    let items := (← read a).items
    enterBranch 0
    repeatItems item index inner 0 items
  | .count a => do
    let times := iterationCount (← read a)
    enterBranch 0
    repeatTimes index inner 0 times

/-- Visit the content once per turn; at the end the item is null. -/
def repeated (source : RepetitionSource) (item index : Option Association)
    (inner : Walk (Option α)) : Walk (Option α) := do
  let result ← turns source item index inner
  leaveBranch
  if result.isNone then write? item .null
  return result

/-- Print an HTML element around the content, if it has a name. -/
def renderContainer (elementName : Association) (bindings : Associations)
    (inner : Walk (Option α)) : Walk (Option α) := do
  match (← read elementName).display? with
  | none => inner
  | some name =>
    print (Html.startTag name (← attributes bindings) false)
    let result ← inner
    print (Html.endTag name)
    return result

/-- What a link leads to, when it is followed. -/
def followLink (task : Task) : LinkTarget → Walk (Option Answer)
  | .action action => invoke task action
  | .pageName name => do
    record (.perform name)
    return (← read name).display?.map .pageNamed
  | .href _ => return none

def renderHyperlink (target : LinkTarget) (bindings : Associations) (inner : Walk (Option α)) :
    Walk (Option α) := do
  let href ←
    match target with
    | .href url => read url
    | _ => do pure (Value.text (← Walk.actionUrl))
  print (Html.startTag "a" (("href", href) :: (← attributes bindings)) false)
  let result ← inner
  print (Html.endTag "a")
  return result

/-- Visit the content of a form. Afterwards the walk counts as outside of every form. -/
def inForm (inner : Walk α) : Walk α := do
  modify fun s => { s with inForm := true }
  settle inner (modify fun s => { s with inForm := false })

def invokeForm (task : Task) (action : Option Association) (hasContent : Bool)
    (inner : Walk (Option Answer)) : Walk (Option Answer) := do
  if ← isSender task then
    match action with
    | some action => invoke task action
    | none => if hasContent then inForm inner else return none
  else return none

def renderForm (bindings : Associations) (inner : Walk (Option α)) : Walk (Option α) := do
  let own : Html.Attributes := [("method", .text "post"), ("action", .text (← Walk.actionUrl))]
  print (Html.startTag "form" (own ++ (← attributes bindings)) false)
  let result ← inForm inner
  print (Html.endTag "form")
  return result

/-- Leave a mark: print it, or add it to the bound value. -/
def mark (task : Task) (describe : Standing → String) (value : Option Association) : Walk Unit := do
  let text := describe (← standing task)
  match task.phase, value with
  | .render, _ => print text
  | _, none => return ()
  | _, some a =>
    let old := match ← read a with
      | .text old => old
      | _ => ""
    write a (.text (old ++ text))

end Tag

end PageEngine
