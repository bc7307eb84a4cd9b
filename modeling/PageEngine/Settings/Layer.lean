import PageEngine.Settings.Datum

/-! Layers of settings, laid one over another. Each entry of a layer has an address: a name,
followed by names after dots and positions in brackets that lead into tables and lists. What
is no address stands for itself as a name. A table is laid over a table entry by entry;
anything else takes the place of what was there. -/

namespace PageEngine

/-- One step of an address. A position below zero counts from the end. -/
inductive AddressStep where
  | name (name : String)
  | position (i : Int)
  deriving DecidableEq, Repr

/-- The steps of an address after a first name. -/
structure Address where
  first : String
  rest : List AddressStep
  deriving DecidableEq, Repr

namespace Address

def isNameChar (c : Char) : Bool :=
  c.isAlphanum || c == '_' || c == '-'

def isSpace (c : Char) : Bool :=
  c == ' ' || c == '\t'

/-- Read a position of sixty-four bits, which may have a minus sign and space around it. -/
def readPosition (cs : List Char) : Option (Int × List Char) :=
  let (negative, digits) :=
    match cs.dropWhile isSpace with
    | '-' :: rest => (true, rest)
    | rest => (false, rest)
  match Text.readDigits (digits.takeWhile Char.isDigit) with
  | none => none
  | some n =>
    let i := if negative then -Int.ofNat n else Int.ofNat n
    if Text.isWord i then some (i, (digits.dropWhile Char.isDigit).dropWhile isSpace) else none

/-- Read steps to the end of the text; `fuel` bounds how many. -/
def readSteps : Nat → List Char → Option (List AddressStep)
  | _, [] => some []
  | fuel + 1, '.' :: cs => do
    let name := cs.takeWhile isNameChar
    if name.isEmpty then none
    else return .name (String.ofList name) :: (← readSteps fuel (cs.dropWhile isNameChar))
  | fuel + 1, '[' :: cs => do
    let (i, rest) ← readPosition cs
    match rest with
    | ']' :: rest => return .position i :: (← readSteps fuel rest)
    | _ => none
  | _, _ => none

/-- The address a key is, or the key as a name. Each step takes up a character. -/
def ofKey (key : String) : Address :=
  let name := key.toList.takeWhile isNameChar
  let rest := key.toList.dropWhile isNameChar
  if name.isEmpty then ⟨key, []⟩
  else
    match readSteps rest.length rest with
    | some steps => ⟨String.ofList name, steps⟩
    | none => ⟨key, []⟩

end Address

namespace Datum

mutual

/-- Lay a datum over another. -/
def laidOver : Datum → Datum → Datum
  | .table entries, old => .table (entriesLaidOver entries old.entries)
  | new, _ => new

/-- Lay entries over those of a table, one after the other. -/
def entriesLaidOver : List (String × Datum) → Dictionary Datum → Dictionary Datum
  | [], old => old
  | (name, new) :: rest, old =>
    let datum := new.laidOver ((Dictionary.get? name old).getD .gap)
    entriesLaidOver rest (Dictionary.insert name datum old)

end

/-- The items of a list with room for a position, and the place where it is. -/
def roomAt (i : Int) (items : List Datum) : List Datum × Nat :=
  let place := if 0 ≤ i then i else Int.ofNat items.length + i
  if place < 0 then (List.replicate (-place).toNat .gap ++ items, 0)
  else (items ++ List.replicate (place.toNat + 1 - items.length) .gap, place.toNat)

/-- Lay a datum over what some steps lead to. Tables and lists on the way are made, also in
place of anything else. -/
def place (new : Datum) : List AddressStep → Datum → Datum
  | [], old => new.laidOver old
  | .name name :: steps, old =>
    let inside := (Dictionary.get? name old.entries).getD .gap
    .table (Dictionary.insert name (place new steps inside) old.entries)
  | .position i :: steps, old =>
    let (items, n) := roomAt i old.items
    .list (items.set n (place new steps (items[n]?.getD .gap)))

theorem roomAt_lt (i : Int) (items : List Datum) :
    (roomAt i items).2 < (roomAt i items).1.length := by
  simp only [roomAt]
  generalize (if 0 ≤ i then i else Int.ofNat items.length + i) = place
  by_cases h : place < 0
  · simp only [h, ↓reduceIte, List.length_append, List.length_replicate]
    omega
  · simp only [h, ↓reduceIte, List.length_append, List.length_replicate]
    omega

end Datum

/-- The entries of one source of settings. -/
abbrev Layer := Dictionary Datum

namespace Layer

/-- Lay one entry over a layer. -/
def put (layer : Layer) (key : String) (d : Datum) : Layer :=
  let address := Address.ofKey key
  let old := (Dictionary.get? address.first layer).getD .gap
  Dictionary.insert address.first (d.place address.rest old) layer

/-- A key changes the entry that its address begins with. -/
theorem get?_put_self (layer : Layer) (key : String) (d : Datum) :
    Dictionary.get? (Address.ofKey key).first (layer.put key d) =
      some (d.place (Address.ofKey key).rest
        ((Dictionary.get? (Address.ofKey key).first layer).getD .gap)) := by
  simp [put]

/-- A key changes no other entry. -/
theorem get?_put_of_ne (layer : Layer) {key name : String} (d : Datum)
    (h : name ≠ (Address.ofKey key).first) :
    Dictionary.get? name (layer.put key d) = Dictionary.get? name layer := by
  rw [put]
  exact Dictionary.get?_insert_of_ne h _ _

/-- Lay the entries of `upper` over `lower`. -/
def lay (lower upper : Layer) : Layer :=
  upper.foldl (fun layer (key, d) => layer.put key d) lower

/-- All layers in one, the lowest given first. -/
def stack (layers : List Layer) : Layer :=
  layers.foldl lay []

end Layer

end PageEngine
