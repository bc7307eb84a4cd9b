import PageEngine.Source.Span

/-! Lines and columns. Only a line feed ends a line, and it belongs to the line it ends.
Lines and columns count from one, columns in bytes. The starts of the lines are found
once and kept as words of 32 bits; an offset is then placed by halving the list of starts. -/

namespace PageEngine

/-- A line and a column, both counted from one. -/
structure Position where
  line : Nat
  column : Nat
  deriving DecidableEq, Repr

/-- The offsets after each line feed of a text that begins at `offset`. -/
def lineStartsFrom (offset : Nat) : List Char → List Nat
  | [] => []
  | c :: cs =>
    let next := offset + c.utf8Size
    if c = '\n' then next :: lineStartsFrom next cs else lineStartsFrom next cs

/-- Where the lines of a text start, and its length in bytes. -/
structure LineIndex where
  starts : Array UInt32
  length : UInt32

namespace LineIndex

/-- What does not fit into a word is held at the largest one. -/
def ofText (text : String) : LineIndex :=
  let cs := text.toList
  ⟨((0 :: lineStartsFrom 0 cs).map UInt32.ofNatClamp).toArray,
    .ofNatClamp (Text.byteLength cs)⟩

/-- Look for `x` from `lo` up to `hi` in an ascending array: the place where it stands, or else
the place where it could be put in. -/
def search (xs : Array UInt32) (x : UInt32) (lo hi : Nat) (h : hi ≤ xs.size) : Except Nat Nat :=
  if hlt : lo < hi then
    let mid := (lo + hi) / 2
    have hmid : mid < xs.size := by omega
    if xs[mid] = x then .ok mid
    else if xs[mid] < x then search xs x (mid + 1) hi h
    else search xs x lo mid (by omega)
  else .error lo
termination_by hi - lo

/-- The line of an offset within the text, counted from zero. -/
def lineAt (index : LineIndex) (offset : UInt32) : Nat :=
  match search index.starts offset 0 index.starts.size (Nat.le_refl _) with
  | .ok exact => exact
  | .error next => next - 1

/-- Where a line starts, lines counted from zero. -/
def startOf (index : LineIndex) (line : Nat) : UInt32 :=
  index.starts[line]?.getD 0

/-- The position of an offset. Offsets past the end stand at the end. -/
def positionAt (index : LineIndex) (offset : UInt32) : Position :=
  let offset := min offset index.length
  let line := index.lineAt offset
  ⟨(UInt32.ofNatClamp (line + 1)).toNat, (offset - index.startOf line + 1).toNat⟩

/-- The position of an offset of any size, which is held at the largest word. -/
def position (index : LineIndex) (offset : Nat) : Position :=
  index.positionAt (.ofNatClamp offset)

def lineCount (index : LineIndex) : Nat :=
  index.starts.size

end LineIndex

/-- The positions of the two ends of a span. -/
def Span.positions (s : Span) (index : LineIndex) : Position × Position :=
  (index.position s.start, index.position s.stop)

end PageEngine
