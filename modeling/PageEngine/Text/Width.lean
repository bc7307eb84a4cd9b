import PageEngine.Text.WidthRanges

/-! How many columns a character takes where every column has the same width, and how the
characters of a source line are drawn there. -/

namespace PageEngine.Text

def isWithin (ranges : List (Nat × Nat)) (c : Char) : Bool :=
  ranges.any fun (first, last) => first ≤ c.toNat && c.toNat ≤ last

/-- The number of columns of a character. Control characters take one; one letter stands for
three. -/
def width (c : Char) : Nat :=
  if c.toNat < 0xAD then 1
  else if c.toNat = 0x17D8 then 3
  else if isWithin emptyRanges c then 0
  else if isWithin wideRanges c then 2
  else 1

/-- The number of columns of characters beside each other. -/
def widths : List Char → Nat
  | [] => 0
  | c :: cs => width c + widths cs

theorem widths_append (cs ds : List Char) : widths (cs ++ ds) = widths cs + widths ds := by
  induction cs with
  | nil => simp [widths]
  | cons c cs ih =>
    simp only [List.cons_append, widths, ih]
    omega

theorem width_of_ascii {c : Char} (h : c.toNat < 0x80) : width c = 1 := by
  simp only [width]
  rw [if_pos (by omega)]

/-- A character as it is drawn: a tab is four spaces, other control characters have pictures,
and characters that would turn the direction of the text are hidden. A line feed stays. -/
def drawn (c : Char) : List Char :=
  let n := c.toNat
  if c = '\t' then List.replicate 4 ' '
  else if c = '\n' then [c]
  else if n < 0x20 then [Char.ofNat (0x2400 + n)]
  else if n = 0x7F then [Char.ofNat 0x2421]
  else if n = 0x200D then []
  else if (0x202A ≤ n && n ≤ 0x202E) || (0x2066 ≤ n && n ≤ 0x2069) then [Char.ofNat 0xFFFD]
  else [c]

/-- The number of columns that characters are drawn in. -/
def columns (cs : List Char) : Nat :=
  widths (cs.flatMap drawn)

@[simp] theorem columns_nil : columns [] = 0 := rfl

theorem columns_append (cs ds : List Char) : columns (cs ++ ds) = columns cs + columns ds := by
  rw [columns, List.flatMap_append, widths_append, columns, columns]

end PageEngine.Text
