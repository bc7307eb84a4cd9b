import PageEngine.Value.Basic
import PageEngine.Text.Numeral
import PageEngine.Text.Segments

/-! Key paths. A path is a text cut at every dot; the first segment names an entry of a
component, the others lead into objects by key and into lists by position. What is missing
reads as null. Writing makes objects on the way and puts them in place of anything that is
no object. -/

namespace PageEngine

/-- The segments of a key path, the first one apart. -/
structure KeyPath where
  first : String
  rest : List String
  deriving DecidableEq, Repr

namespace KeyPath

def ofString (path : String) : KeyPath :=
  let (first, rest) := Text.segments '.' path.toList
  ⟨String.ofList first, rest.map String.ofList⟩

end KeyPath

namespace Value

/-- One step into a value. -/
def step (segment : String) : Value → Value
  | .object fields => (Dictionary.get? segment fields).getD .null
  | .list items =>
    match Text.readUnsigned segment.toList with
    | some i => items[i]?.getD .null
    | none => .null
  | _ => .null

/-- Follow segments into a value. -/
def follow : List String → Value → Value
  | [], v => v
  | segment :: rest, v => follow rest (v.step segment)

/-- Put `new` at the end of some segments inside a value. -/
def place (v : Value) : List String → Value → Value
  | [], new => new
  | segment :: rest, new =>
    let old := (Dictionary.get? segment v.fields).getD .null
    .object (Dictionary.insert segment (old.place rest new) v.fields)

end Value

/-- The entries of a component by key. -/
abbrev Entries := Dictionary Value

namespace Entries

def get (entries : Entries) (key : String) : Value :=
  (Dictionary.get? key entries).getD .null

/-- Read at a key path. -/
def read (entries : Entries) (path : String) : Value :=
  let path := KeyPath.ofString path
  (get entries path.first).follow path.rest

/-- Write at a key path. -/
def write (entries : Entries) (path : String) (new : Value) : Entries :=
  let path := KeyPath.ofString path
  Dictionary.insert path.first ((get entries path.first).place path.rest new) entries

end Entries

namespace Value

@[simp] theorem follow_nil (v : Value) : v.follow [] = v := rfl

@[simp] theorem follow_cons (s : String) (rest : List String) (v : Value) :
    v.follow (s :: rest) = (v.step s).follow rest := rfl

/-- What was put somewhere is found there. -/
@[simp] theorem follow_place (v : Value) (segments : List String) (new : Value) :
    (v.place segments new).follow segments = new := by
  induction segments generalizing v with
  | nil => rfl
  | cons s rest ih => simp [place, step, ih]

/-- Of two values put at one place only the later remains. -/
theorem place_place (v : Value) (segments : List String) (old new : Value) :
    (v.place segments old).place segments new = v.place segments new := by
  induction segments generalizing v with
  | nil => rfl
  | cons s rest ih => simp [place, fields, Dictionary.insert_insert_self, ih]

end Value

namespace Entries

theorem get_insert_self (key : String) (v : Value) (entries : Entries) :
    get (Dictionary.insert key v entries) key = v := by
  simp [get]

end Entries

end PageEngine
