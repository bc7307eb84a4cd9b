import PageEngine.Text.Bytes

/-! Half-open byte ranges of a source text. Offsets are kept below 2^32: a start, a length
or an end past the last offset is held at it. -/

namespace PageEngine

/-- The largest offset that is told apart. -/
def maxOffset : Nat := 0xFFFFFFFF

/-- Hold an offset at the largest one. -/
def clampOffset (n : Nat) : Nat :=
  min n maxOffset

/-- The bytes from `start` on, `length` of them. -/
structure Span where
  start : Nat
  length : Nat
  deriving DecidableEq, Repr, Inhabited

namespace Span

/-- A span from a start and a length of any size. A length that is too large reaches to the
largest offset. -/
def ofParts (start length : Nat) : Span :=
  let first := clampOffset start
  ⟨first, if length ≤ maxOffset then length else maxOffset - first⟩

/-- The span between two offsets, empty when they are out of order. -/
def ofBounds (start stop : Nat) : Span :=
  ofParts start (stop - start)

/-- The offset just past the span. -/
def stop (s : Span) : Nat :=
  clampOffset (s.start + s.length)

def isEmpty (s : Span) : Bool :=
  s.length == 0

/-- The text of the span, if it lies within `source` and splits no character. -/
def slice (s : Span) (source : String) : Option String :=
  (Text.slice s.start s.stop source.toList).map String.ofList

/-- Between offsets in order and in range, a span is just its two bounds. -/
theorem ofBounds_eq {start stop : Nat} (h : start ≤ stop) (hmax : stop ≤ maxOffset) :
    ofBounds start stop = ⟨start, stop - start⟩ := by
  have h1 : clampOffset start = start := Nat.min_eq_left (by omega)
  have h2 : stop - start ≤ maxOffset := by omega
  simp [ofBounds, ofParts, h1, h2]

@[simp] theorem stop_ofBounds {start stop : Nat} (h : start ≤ stop) (hmax : stop ≤ maxOffset) :
    (ofBounds start stop).stop = stop := by
  rw [ofBounds_eq h hmax]
  simp only [Span.stop, clampOffset]
  omega

end Span

end PageEngine
