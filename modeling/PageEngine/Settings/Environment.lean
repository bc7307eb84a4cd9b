import PageEngine.Settings.Layer
import PageEngine.Text.Segments

/-! The layer of settings that environment variables make. A variable `NG_X` sets the entry
`x`, whatever the case of its letters. Its text is a truth value or a number if it can be
read as one; the list of template directories is cut at commas. -/

namespace PageEngine

namespace Environment

/-- The start of the names of variables that hold settings. -/
def marker : List Char := ['n', 'g', '_']

/-- The entry whose text is a list. -/
def listEntry : String := "template_dirs"

/-- Set a variable in place of any with its name. -/
def assign (assigned : List (String × String)) (name value : String) :
    List (String × String) :=
  if assigned.any (·.1 == name) then
    assigned.map fun v => if v.1 == name then (name, value) else v
  else assigned ++ [(name, value)]

/-- The entry that a variable sets. -/
def entryOf? (name : String) : Option String :=
  let name := name.toList.map Char.toLower
  if marker.isPrefixOf name then some (String.ofList (name.drop marker.length)) else none

/-- Read a number, also `inf`, `infinity` and `nan` with any case of letters. -/
def magnitude? (cs : List Char) : Option Magnitude :=
  let (negative, rest) := Decimal.readSign cs
  let word := String.ofList (rest.map Char.toLower)
  if word = "inf" ∨ word = "infinity" then some (.infinite negative)
  else if word = "nan" then some .indefinite
  else (Decimal.read cs).map Magnitude.ofDecimal

/-- What the text of a variable means for an entry. -/
def datum (entry value : String) : Datum :=
  if value.toLower = "true" then .truth true
  else if value.toLower = "false" then .truth false
  else
    match (Text.readSigned value.toList).filter Text.isWord with
    | some i => .whole i
    | none =>
      match magnitude? value.toList with
      | some m => .real m
      | none =>
        if entry = listEntry then
          let (first, rest) := Text.segments ',' value.toList
          .list ((first :: rest).map fun part => .text (String.ofList part))
        else .text value

/-- The layer of a list of assignments, carried out in order. -/
def layer (assignments : List (String × String)) : Layer :=
  let assigned := assignments.foldl (fun vs (name, value) => assign vs name value) []
  Dictionary.ofList (assigned.filterMap fun (name, value) =>
    (entryOf? name).map fun entry => (entry, datum entry value))

end Environment

end PageEngine
