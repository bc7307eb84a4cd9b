import PageEngine.Markup.Cursor

/-! Reading by bytes. Positions are numbers of bytes, and tests look at single bytes, so that a
position may come to lie within a character. What is cut out of the source is checked: a cut out
of range or through a character has no result, and neither has a computation that never ends. -/

namespace PageEngine

/-- A computation that may fail with a fault, or have no result at all. -/
abbrev Checked := ExceptT Fault Option

namespace Checked

variable {α β : Type}

/-- A computation without a result. -/
def stuck : Checked α := ExceptT.mk none

@[simp] theorem throw_bind (fault : Fault) (f : α → Checked β) :
    (throw fault : Checked α) >>= f = throw fault := rfl

end Checked

/-- A source that is read by bytes. -/
abbrev ByteReader := List Char

namespace ByteReader

variable (source : ByteReader)

/-! ### Positions -/

def byteAt (pos : Nat) : Option UInt8 := (Text.encode source)[pos]?

/-- Whether the byte at a position is an ASCII character with a property. -/
def isAt (q : Char → Bool) (pos : Nat) : Bool := (byteAt source pos).any (Text.byteIs q)

/-- The position some bytes on, but not past the end. -/
def advance (count pos : Nat) : Nat := min (pos + count) (Text.byteLength source)

/-- The position after the bytes of a kind. -/
def skipWhile (p : UInt8 → Bool) (pos : Nat) : Nat :=
  pos + (((Text.encode source).drop pos).takeWhile p).length

def skipSpace (pos : Nat) : Nat := skipWhile source (Text.byteIs Text.isMarkupSpace) pos

/-- The bytes from a position on. -/
def bytesFrom (pos : Nat) : Checked (List UInt8) :=
  if pos ≤ Text.byteLength source then pure ((Text.encode source).drop pos) else .stuck

/-- The text between two positions. -/
def cutOut (start stop : Nat) : Checked (List Char) :=
  if start ≤ stop then
    match Text.slice start stop source with
    | some text => pure text
    | none => .stuck
  else .stuck

/-- The run of bytes of a kind, and the position after it. -/
def takeRun (p : UInt8 → Bool) (pos : Nat) : Checked (List Char × Nat) := do
  let stop := skipWhile source p pos
  return (← cutOut source pos stop, stop)

/-- The character that begins at a position. -/
def charAt? (pos : Nat) : Option Char :=
  (Text.splitBytes pos source).bind fun (_, rest) => rest.head?

def expect (expected : Char) (pos : Nat) : Checked Nat :=
  match byteAt source pos with
  | none => throw ⟨.unexpectedEnd expected, pos⟩
  | some b =>
    if Text.byteIs (· == expected) b then return advance source 1 pos
    else throw ⟨.expected expected ((charAt? source pos).getD '\uFFFD'), pos⟩

/-! ### Words -/

def startsWith (word : List Char) (pos : Nat) : Checked Bool := do
  return (Text.encode word).isPrefixOf (← bytesFrom source pos)

/-- A byte with ASCII capitals made small. -/
def lowerByte (b : UInt8) : UInt8 := if Text.byteIs Char.isUpper b then b + 32 else b

def startsWithAnyCase (word : List Char) (pos : Nat) : Checked Bool := do
  let found := (← bytesFrom source pos).take (Text.encode word).length
  return found.map lowerByte == (Text.encode word).map lowerByte

/-- Whether a word stands at a position, perhaps in any case of letters. -/
def beginsWith (anyCase : Bool) (word : List Char) (pos : Nat) : Checked Bool :=
  if anyCase then startsWithAnyCase source word pos else startsWith source word pos

/-- Whether a word stands at a position and goes on in some way. -/
def wordAt (anyCase : Bool) (word : List Char) (ends : Char → Bool) (pos : Nat) :
    Checked Bool := do
  return (← beginsWith source anyCase word pos) && isAt source ends (pos + Text.byteLength word)

end ByteReader

end PageEngine
