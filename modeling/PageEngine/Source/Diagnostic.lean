import PageEngine.Source.Line
import PageEngine.Source.Span
import PageEngine.Source.Window
import PageEngine.Text.Segments

/-! A message about a place in a source, drawn as text: a title, the path with line and
column, the lines of the place and carets under it. The printed column counts characters; the
carets stand under the columns that the characters are drawn in. A place on one line is
underlined; one that runs over several lines is bracketed at the left. -/

namespace PageEngine

/-- How bad the finding is; the word is printed in front of it. -/
inductive Severity where
  | error
  | warning
  deriving DecidableEq, Repr

def Severity.word : Severity → String
  | .error => "error"
  | .warning => "warning"

/-- A finding about a source text, ready to be drawn. -/
structure Diagnostic where
  source : String
  path : String
  code : String
  message : String
  severity : Severity
  span : Span
  label : String
  notes : List String

namespace Diagnostic

/-- The columns of a drawing. -/
def drawingWidth : Nat := 140

def spaces (n : Nat) : List Char :=
  List.replicate n ' '

/-- The gutter of a row: a mark at its right end, one column more, and a bar. A line number that
is too long for the gutter takes the column. -/
def gutter (width : Nat) (mark : String) : List Char :=
  let mark := spaces (width - mark.length) ++ mark.toList
  mark ++ spaces (width + 1 - mark.length) ++ ['|']

/-- A row of the drawing: the gutter, and text set off by a space if there is any. -/
def row (width : Nat) (mark : String) (text : List Char) : List Char :=
  if text.isEmpty then gutter width mark else gutter width mark ++ ' ' :: text

/-- A lead and a text after it; further lines of the text are indented. -/
def hang (lead : List Char) (indent : Nat) (text : List Char) : List Char :=
  let (first, rest) := Text.segments '\n' text
  lead ++ first ++ rest.flatMap fun line => '\n' :: spaces indent ++ line

/-- The title of the drawing; control characters of the message are drawn. -/
def title (d : Diagnostic) : List Char :=
  let lead := d.severity.word ++ "[" ++ d.code ++ "]: "
  hang lead.toList (lead.utf8ByteSize) (d.message.toList.flatMap Text.drawn)

/-- The columns that a label takes behind the carets. -/
def labelWidth (label : List Char) : Nat :=
  Text.columns label + 1

/-- The label of the drawing, set off from the carets. -/
def labelText (label : List Char) : List Char :=
  if label.isEmpty then [] else ' ' :: label

/-- A line and the carets under the marked columns. -/
def underlined (width : Nat) (line : SourceLine) (first last : Nat) (label : List Char) :
    List (List Char) :=
  let window := Window.fit (drawingWidth - (width + 3))
    ⟨min ((line.indent?).getD 0) first, first, last, last + labelWidth label,
      Text.columns line.text⟩
  let (code, left) := window.cut (line.text.flatMap Text.drawn)
  [row width (toString line.number) code,
    row width ""
      (spaces (first - left) ++ List.replicate (last - first) '^' ++ labelText label)]

/-- A text says something if it is more than blanks, one bracket or a comment. -/
def isTelling (text : List Char) : Bool :=
  match Text.trim text with
  | [] => false
  | [c] => c ∉ ['{', '}', '(', ')', '[', ']']
  | '/' :: '/' :: c :: _ => c == '/' || c == '!'
  | ['/', '/'] => false
  | _ => true

/-- The numbers of the lines that are shown of a place from one line to a later one: both ends,
what follows the first of them within four lines as far as it is telling, and the line before
the last unless it tells nothing. -/
def shownNumbers (lines : List SourceLine) (first last : Nat) : List Nat :=
  let isTellingAt (number : Nat) : Bool :=
    (SourceLine.numbered? lines number).any fun line => isTelling line.text
  let middle := min (first + 4) last
  let following := (List.range' (first + 1) (middle - first - 1)).reverse
  let told := (following.dropWhile fun number => !isTellingAt number).reverse
  let close := if middle < last - 1 && isTellingAt (last - 1) then [last - 1] else []
  first :: told ++ close ++ [last]

/-- The parts of a list one after another, with what stands between each two of them. -/
def joined {α β : Type} (own : α → List β) (between : α → α → List β) : List α → List β
  | [] => []
  | [a] => own a
  | a :: b :: rest => own a ++ between a b ++ joined own between (b :: rest)

/-- The lines of a place that runs over several of them, with a bracket at the left that opens
at the first marked character and ends under the last one. -/
def bracketed (width : Nat) (lines : List SourceLine) (first last : Place) (label : List Char) :
    List (List Char) :=
  let numbers := shownNumbers lines first.line last.line
  let shown := numbers.filterMap (SourceLine.numbered? lines)
  let lastMark := last.column - 1
  let indent := ((shown.filterMap SourceLine.indent?).min?).getD 0
  let leftmost := if numbers.length > 2 then 0 else min first.column lastMark
  let window := Window.fit (drawingWidth - (width + 5))
    ⟨min indent leftmost, leftmost, max (first.column + 1) last.column,
      max (first.column + 1) (last.column + labelWidth label),
      ((shown.map fun l => Text.columns l.text).max?).getD 0⟩
  let code (bracket : Char) (line : SourceLine) : List Char × Nat :=
    let (code, left) := window.cut (line.text.flatMap Text.drawn)
    let text := if code.isEmpty then [bracket] else bracket :: ' ' :: code
    (row width (toString line.number) text, left)
  let opening (line : SourceLine) : List (List Char) :=
    if ((line.text.flatMap Text.drawn).take first.column).all Text.isBlank then
      [(code '/' line).1]
    else
      let (text, left) := code ' ' line
      [text, row width "" (' ' :: List.replicate (first.column + 1 - left) '_' ++ ['^'])]
  let closing (line : SourceLine) : List (List Char) :=
    let (text, left) := code '|' line
    [text,
      row width "" ('|' :: List.replicate (lastMark + 1 - left) '_' ++ '^' :: labelText label)]
  let passed (earlier later : SourceLine) : List (List Char) :=
    if later.number - earlier.number > 2 then
      [Window.dots ++ spaces width ++ ['|']]
    else
      (SourceLine.numbered? lines (earlier.number + 1)).toList.filterMap fun line =>
        if line.number < later.number then some (code '|' line).1 else none
  let own (line : SourceLine) : List (List Char) :=
    if line.number = first.line then opening line
    else if line.number = last.line then closing line
    else [(code '|' line).1]
  joined own passed shown

/-- Draw a diagnostic. A span beyond the source is moved to its end, and an empty one still
gets one caret. -/
def render (d : Diagnostic) : String :=
  let text := d.source.toList
  let length := Text.byteLength text
  let start := min d.span.start length
  let stop := max start (min d.span.stop length)
  let lines := SourceLine.ofText text
  let upTo := ((Text.splitBytes stop text).map Prod.fst).getD text
  let width := (toString (SourceLine.ofText upTo).length).length
  match SourceLine.at? lines start, SourceLine.at? lines stop with
  | some firstLine, some lastLine =>
    let first := firstLine.place start
    let beyond := if start > firstLine.textStop then 1 else 0
    let label := d.label.toList
    let body :=
      if start = stop || firstLine.number = lastLine.number then
        let last := (firstLine.place stop).column
        underlined width firstLine first.column (max (first.column + 1) last) label
      else
        let past := if stop > lastLine.textStop then 1 else 0
        let last := lastLine.place stop
        bracketed width lines first ⟨last.line, last.characters + past, last.column + past⟩ label
    let place := ":" ++ toString first.line ++ ":" ++ toString (first.characters + beyond + 1)
    let origin := spaces width ++ "--> ".toList ++ d.path.toList ++ place.toList
    let notes := d.notes.map fun note =>
      hang (spaces width ++ " = note: ".toList) (width + 9) note.toList
    let blank := row width "" []
    let rows := d.title :: origin :: blank :: body ++ if notes.isEmpty then [] else blank :: notes
    String.ofList (List.intercalate ['\n'] rows)
  | _, _ => String.ofList d.title

end Diagnostic

end PageEngine
