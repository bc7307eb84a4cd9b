import PageEngine.Settings.Document.Scalar
import PageEngine.Settings.Document.Section

/-! Values of a TOML document: quoted texts, words, lists in brackets and tables in braces.
Inside brackets and braces all parts may stand on lines of their own, but for the names of one
key, and a comma may follow the last one. -/

namespace PageEngine.Document

/-- How deep lists and tables may be nested. -/
def greatestNesting : Nat := 80

mutual

/-- Read a value in which lists and tables may be nested `nesting` deep. Each step of
`fuel` pays for one part. -/
def readNested (nesting : Nat) : Nat → List Char → Option (Datum × List Char)
  | 0, _ => none
  | fuel + 1, '[' :: cs =>
    if nesting = 0 then none
    else do
      let (items, rest) ← readItems (nesting - 1) fuel (skipBlank false cs)
      return (.list items, rest)
  | fuel + 1, '\x7b' :: cs =>
    if nesting = 0 then none
    else do
      let (entries, rest) ← readFields (nesting - 1) [] fuel (skipBlank false cs)
      return (.table (Section.entriesData entries), rest)
  | _ + 1, cs =>
    if cs.head? = some '"' ∨ cs.head? = some '\'' then
      (readQuoted cs).map fun (value, rest) => (.text value, rest)
    else readWord cs

/-- Read the items of a list up to its closing bracket. -/
def readItems (nesting : Nat) : Nat → List Char → Option (List Datum × List Char)
  | 0, _ => none
  | _ + 1, ']' :: cs => some ([], cs)
  | fuel + 1, cs => do
    let (item, rest) ← readNested nesting fuel cs
    match skipBlank false rest with
    | ',' :: rest =>
      let (items, rest) ← readItems nesting fuel (skipBlank false rest)
      return (item :: items, rest)
    | ']' :: rest => return ([item], rest)
    | _ => none

/-- Read the entries of a table up to its closing brace and add them to those before. -/
def readFields (nesting : Nat) (entries : Dictionary Section) :
    Nat → List Char → Option (Dictionary Section × List Char)
  | 0, _ => none
  | _ + 1, '\x7d' :: cs => some (entries, cs)
  | fuel + 1, cs => do
    let (key, rest) ← readKey cs
    match skipBlank false rest with
    | '=' :: rest =>
      let (d, rest) ← readNested nesting fuel (skipBlank false rest)
      let entries ← Section.put key d entries
      match skipBlank false rest with
      | ',' :: rest => readFields nesting entries fuel (skipBlank false rest)
      | '\x7d' :: rest => return (entries, rest)
      | _ => none
    | _ => none

end

/-- Read a value. Each part takes up a character, and each item costs at most two parts. -/
def readValue (cs : List Char) : Option (Datum × List Char) :=
  readNested greatestNesting (2 * cs.length + 1) cs

end PageEngine.Document
