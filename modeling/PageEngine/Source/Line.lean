import PageEngine.Text.Blank
import PageEngine.Text.Bytes
import PageEngine.Text.Width

/-! The lines of a source as they are shown to a reader. A line ends at a line feed, with the
carriage return before it, and neither is part of its text. A place on a line is known in two
measures: the characters before it, which are counted for its name, and the columns before it,
which are counted for drawing. -/

namespace PageEngine

/-- One line of a source, without its ending. -/
structure SourceLine where
  number : Nat
  start : Nat
  text : List Char
  /-- The number of bytes of the line ending. -/
  ending : Nat
  deriving Inhabited

/-- A place on a line. -/
structure Place where
  line : Nat
  characters : Nat
  column : Nat
  deriving DecidableEq, Repr

namespace SourceLine

/-- The offset just past the text of a line, where its ending starts. -/
def textStop (l : SourceLine) : Nat :=
  l.start + Text.byteLength l.text

/-- The offset just past the line and its ending. -/
def stop (l : SourceLine) : Nat :=
  l.textStop + l.ending

/-- A finished line; a carriage return before the line feed is part of the ending. -/
def close (number start : Nat) (textReversed : List Char) : SourceLine :=
  match textReversed with
  | '\r' :: rest => ⟨number, start, rest.reverse, 2⟩
  | rest => ⟨number, start, rest.reverse, 1⟩

/-- The lines of a text, `current` being read backwards so far. Nothing follows a final line
feed. -/
def split (number start : Nat) (current : List Char) : List Char → List SourceLine
  | [] => if current.isEmpty then [] else [⟨number, start, current.reverse, 0⟩]
  | '\n' :: cs =>
    let line := close number start current
    line :: split (number + 1) line.stop [] cs
  | c :: cs => split number start (c :: current) cs

/-- The lines of a text; an empty text has one empty line. -/
def ofText (text : List Char) : List SourceLine :=
  match split 1 0 [] text with
  | [] => [⟨1, 0, [], 0⟩]
  | lines => lines

/-- The characters of a line before an offset. -/
def before (l : SourceLine) (offset : Nat) : List Char :=
  go (offset - l.start) l.text
where
  go : Nat → List Char → List Char
    | _, [] => []
    | n, c :: cs => if c.utf8Size ≤ n then c :: go (n - c.utf8Size) cs else []

/-- The line that an offset lies on; the end of the text lies on the last line. -/
def at? (lines : List SourceLine) (offset : Nat) : Option SourceLine :=
  match lines.find? fun l => l.start ≤ offset && offset < l.stop with
  | some line => some line
  | none => lines.getLast?

/-- The line of a number. -/
def numbered? (lines : List SourceLine) (number : Nat) : Option SourceLine :=
  lines.find? fun l => l.number == number

/-- The place of an offset on a line, within its text. -/
def place (l : SourceLine) (offset : Nat) : Place :=
  let before := l.before offset
  ⟨l.number, before.length, Text.columns before⟩

/-- The columns of the blanks in front, or nothing for a line of blanks. A tab counts four
columns and any other blank one. -/
def indent? (l : SourceLine) : Option Nat :=
  if l.text.all Text.isBlank then none
  else some ((l.text.takeWhile Text.isBlank).foldl (fun n c => n + if c = '\t' then 4 else 1) 0)

end SourceLine

end PageEngine
