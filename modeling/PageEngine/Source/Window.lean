import PageEngine.Text.Width

/-! The part of a source line that is shown where columns are few. Deep indentation is cut
away first; a line that is still too long is cut around the marked columns. Three dots stand
where something was cut. -/

namespace PageEngine

namespace Text

/-- The characters from the front that fit a number of columns. -/
def takeColumns : Nat → List Char → List Char
  | _, [] => []
  | n, c :: cs => if width c ≤ n then c :: takeColumns (n - width c) cs else []

/-- Drop characters until a number of columns is reached: the columns dropped, which are more
than asked for when a wide character lies across, and the rest. -/
def dropColumns : Nat → List Char → Nat × List Char
  | _, [] => (0, [])
  | 0, cs => (0, cs)
  | n + 1, c :: cs =>
    let (dropped, rest) := dropColumns (n + 1 - width c) cs
    (width c + dropped, rest)

/-- What is taken fits. -/
theorem widths_takeColumns_le (n : Nat) (cs : List Char) :
    widths (takeColumns n cs) ≤ n := by
  induction cs generalizing n with
  | nil => simp [takeColumns, widths]
  | cons c cs ih =>
    simp only [takeColumns]
    split
    · have := ih (n - width c)
      simp only [widths]
      omega
    · simp [widths]

theorem isPrefix_takeColumns (n : Nat) (cs : List Char) : takeColumns n cs <+: cs := by
  induction cs generalizing n with
  | nil => simp [takeColumns]
  | cons c cs ih =>
    simp only [takeColumns]
    split
    · exact (List.prefix_cons_inj c).mpr (ih _)
    · exact List.nil_prefix

/-- No column is lost: what is dropped and what is left are the whole. -/
theorem fst_dropColumns_add (n : Nat) (cs : List Char) :
    (dropColumns n cs).1 + widths (dropColumns n cs).2 = widths cs := by
  induction cs generalizing n with
  | nil => cases n <;> simp [dropColumns]
  | cons c cs ih =>
    cases n with
    | zero => simp [dropColumns]
    | succ n =>
      have := ih (n + 1 - width c)
      simp only [dropColumns, widths]
      omega

end Text

/-- What has to be seen of some lines: how deep all of them are indented, the first and the
last marked column, the column where the label ends, and the length of the longest line. -/
structure Extent where
  indent : Nat
  first : Nat
  last : Nat
  label : Nat
  longest : Nat

/-- The columns that are shown, of all lines alike: the first one, the end, and how many there
is room for. -/
structure Window where
  left : Nat
  right : Nat
  room : Nat
  deriving DecidableEq, Repr

namespace Window

/-- Columns kept clear around what is marked, for the dots. -/
def clearance : Nat := 6

/-- Indentation beyond this is cut away, down to four columns. -/
def deepIndent : Nat := 20

/-- Choose the columns to show. Whatever fits the room is chosen first: all but the
indentation, all from the indentation on, the marked columns with the label, the marked columns
alone. -/
def fit (room : Nat) (e : Extent) : Window :=
  let indent := e.indent - clearance
  let first := e.first - clearance
  let last := e.last + clearance
  let label := e.label + clearance
  let left := if indent > deepIndent then indent - (deepIndent - 4) else 0
  let right := max e.longest left
  if right - left ≤ room then ⟨left, right, room⟩
  else if label - indent ≤ room then ⟨indent, indent + room, room⟩
  else if label - first ≤ room then
    let left := first - (room - (label - first)) / 2
    ⟨left, left + room, room⟩
  else if last - first ≤ room then
    let left := first - (room - (last - first)) / 5 * 2
    ⟨left, left + room, room⟩
  else ⟨first, last, room⟩

def dots : List Char := ['.', '.', '.']

/-- Write the dots over what stands at a place of a row. -/
def dotsAt (row : List Char) (place : Nat) : List Char :=
  row.take place ++ dots ++ row.drop (place + dots.length)

/-- The part of a drawn line within the window, and the column of the line that it starts
with. Dots take the place of the columns next to a cut. -/
def cut (w : Window) (text : List Char) : List Char × Nat :=
  let length := Text.widths text
  let left := min w.left length
  let right := if length - w.left ≤ w.room then length else min length w.right
  let (dropped, rest) := Text.dropColumns left text
  let code := Text.takeColumns (right - left) rest
  let (lost, kept) := if w.left > 0 then Text.dropColumns dots.length code else (0, code)
  let row :=
    if w.left > 0 then dots ++ List.replicate (lost - dots.length) ' ' ++ kept else code
  let row :=
    if length > right then
      let (_, before) := Text.dropColumns dots.length code.reverse
      dotsAt row (lost + kept.length - (code.length - before.length))
    else row
  (row, max left dropped - (lost - dots.length))

/-- Lines that fit are shown as they are. -/
theorem cut_of_fits (room right : Nat) {text : List Char}
    (h : Text.widths text ≤ room) : (Window.mk 0 right room).cut text = (text, 0) := by
  have hall : ∀ (n : Nat) (cs : List Char), Text.widths cs ≤ n →
      Text.takeColumns n cs = cs := by
    intro n cs
    induction cs generalizing n with
    | nil => intros; rfl
    | cons c cs ih =>
      intro h
      simp only [Text.widths] at h
      rw [Text.takeColumns, if_pos (by omega), ih _ (by omega)]
  have hdrop : Text.dropColumns 0 text = (0, text) := by cases text <;> rfl
  simp [cut, h, hdrop, hall _ text (Nat.le_refl _)]

end Window

end PageEngine
