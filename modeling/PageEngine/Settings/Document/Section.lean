import PageEngine.Settings.Datum
import PageEngine.Settings.Document.Key

/-! The tables of a document while it is read. A table may be opened by its own heading, by
a heading of a table inside it, or by a dotted key, and that decides what may still be added
to it: each heading stands once, and a dotted key adds to no table that has a heading.
A value, also a list or a table in braces, is complete as it stands. -/

namespace PageEngine.Document

/-- What opened a table. -/
inductive Opening where
  | heading
  | inner
  | dotted
  deriving DecidableEq, Repr

/-- What stands under a name: a value, a table, or a list of tables with one heading each,
the last one first. -/
inductive Section where
  | value (d : Datum)
  | table (opening : Opening) (entries : List (String × Section))
  | repeated (last : List (String × Section)) (others : List (List (String × Section)))
  deriving Inhabited

namespace Section

mutual

/-- The datum of a section that is read to its end. -/
def datum : Section → Datum
  | .value d => d
  | .table _ entries => .table (entriesData entries)
  | .repeated last others => .list ((.table (entriesData last) :: tablesData others).reverse)

def entriesData : List (String × Section) → List (String × Datum)
  | [] => []
  | (name, s) :: rest => (name, s.datum) :: entriesData rest

def tablesData : List (List (String × Section)) → List Datum
  | [] => []
  | entries :: rest => .table (entriesData entries) :: tablesData rest

end

/-- Change the entries of the table at the end of some names; tables that are missing on
the way are opened. The change is told how its table was opened. -/
def within (dotted : Bool)
    (change : Opening → Dictionary Section → Option (Dictionary Section)) :
    List String → Opening → Dictionary Section → Option (Dictionary Section)
  | [], opening, entries => change opening entries
  | name :: names, _, entries =>
    match Dictionary.get? name entries with
    | none => do
      let opening := if dotted then .dotted else .inner
      let inside ← within dotted change names opening []
      return Dictionary.insert name (.table opening inside) entries
    | some (.table opening inside) =>
      if dotted && opening == .heading then none
      else do
        let inside ← within dotted change names opening inside
        return Dictionary.insert name (.table opening inside) entries
    | some (.repeated last others) => do
      let last ← within dotted change names .heading last
      return Dictionary.insert name (.repeated last others) entries
    | some (.value _) => none

/-- Store a value under a dotted key. Each name is given once, and dotted keys add only to
tables that dotted keys opened. -/
def put (key : Key) (d : Datum) (entries : Dictionary Section) : Option (Dictionary Section) :=
  within true (fun opening entries =>
    if (opening == .dotted) == key.tables.isEmpty || Dictionary.contains key.name entries then
      none
    else some (Dictionary.insert key.name (.value d) entries)) key.tables .heading entries

/-- Open a table by its heading. -/
def openTable (key : Key) (entries : Dictionary Section) : Option (Dictionary Section) :=
  within false (fun _ entries =>
    match Dictionary.get? key.name entries with
    | none => some (Dictionary.insert key.name (.table .heading []) entries)
    | some (.table .inner inside) =>
      some (Dictionary.insert key.name (.table .heading inside) entries)
    | some _ => none) key.tables .heading entries

/-- Open one more table of a list of tables. -/
def openRepeated (key : Key) (entries : Dictionary Section) : Option (Dictionary Section) :=
  within false (fun _ entries =>
    match Dictionary.get? key.name entries with
    | none => some (Dictionary.insert key.name (.repeated [] []) entries)
    | some (.repeated last others) =>
      some (Dictionary.insert key.name (.repeated [] (last :: others)) entries)
    | some _ => none) key.tables .heading entries

/-- A single name takes a value exactly when nothing stands under it yet. -/
theorem put_name (name : String) (d : Datum) (entries : Dictionary Section) :
    put ⟨[], name⟩ d entries =
      if Dictionary.contains name entries then none
      else some (Dictionary.insert name (.value d) entries) := by
  simp [put, within]

end Section

end PageEngine.Document
