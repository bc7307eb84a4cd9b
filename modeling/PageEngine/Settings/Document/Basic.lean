import PageEngine.Settings.Document.Value

/-! TOML documents. A document is a sequence of statements, each on a line of its own: an
entry stores a value under a key, a heading opens the table that the following entries
belong to. -/

namespace PageEngine.Document

inductive Statement where
  | entry (key : Key) (d : Datum)
  | heading (key : Key) (repeated : Bool)

/-- What follows the end of a heading. -/
def afterHeading? : List Char → List Char → Option (List Char)
  | [], cs => some cs
  | b :: bs, c :: cs => if b = c then afterHeading? bs cs else none
  | _ :: _, [] => none

/-- Read a statement. -/
def readStatement : List Char → Option (Statement × List Char)
  | '[' :: '[' :: cs => do
    let (key, rest) ← readKey (skipSpace cs)
    let rest ← afterHeading? [']', ']'] rest
    return (.heading key true, rest)
  | '[' :: cs => do
    let (key, rest) ← readKey (skipSpace cs)
    let rest ← afterHeading? [']'] rest
    return (.heading key false, rest)
  | cs => do
    let (key, rest) ← readKey cs
    match rest with
    | '=' :: rest =>
      let (d, rest) ← readValue (skipSpace rest)
      return (.entry key d, rest)
    | _ => none

/-- Read the statements of a text; `fuel` bounds how many. -/
def readStatements : Nat → List Char → Option (List Statement)
  | 0, _ => none
  | fuel + 1, cs =>
    match skipBlank false cs with
    | [] => some []
    | start => do
      let (statement, rest) ← readStatement start
      let rest ← afterLine? rest
      return statement :: (← readStatements fuel rest)

/-- The entries read so far, and the names of the table that is open. -/
structure Draft where
  entries : Dictionary Section
  current : List String

namespace Draft

def empty : Draft := ⟨[], []⟩

/-- Carry out one statement. -/
def add (draft : Draft) : Statement → Option Draft
  | .entry key d => do
    let entries ← Section.within false (fun _ => Section.put key d) draft.current .heading
      draft.entries
    return { draft with entries }
  | .heading key repeated => do
    let entries ←
      if repeated then Section.openRepeated key draft.entries
      else Section.openTable key draft.entries
    return ⟨entries, key.names⟩

end Draft

/-- What follows a byte order mark, if one stands first. -/
def dropMark : List Char → List Char
  | '\ufeff' :: cs => cs
  | cs => cs

/-- The entries of a document, unless it is malformed. One byte order mark may stand first in
its file and one more in its text. There are no more statements than characters. -/
def read (source : String) : Option (Dictionary Datum) := do
  let cs := dropMark (dropMark source.toList)
  let statements ← readStatements (cs.length + 1) cs
  let draft ← statements.foldlM Draft.add Draft.empty
  return Section.entriesData draft.entries

end PageEngine.Document
