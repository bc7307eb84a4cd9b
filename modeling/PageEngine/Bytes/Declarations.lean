import PageEngine.Bytes.Reader
import PageEngine.Declaration.Basic

/-! Declarations read by bytes. One pass over the characters, with one of lookahead, makes the mask
of the text: it blanks out comments, fills in literals, and notes where the literals begin and end.
Structure is looked for in the mask, and what a binding says is cut out of the source at the same
positions. -/

namespace PageEngine

open ByteReader (cutOut isAt)
open Lexeme (blankOut fillIn)

/-- A declaration text, its mask, and the ranges of the literals in both. -/
structure Mask where
  source : List Char
  text : List Char
  literals : List (Nat × Nat)

namespace Mask

/-! ### The mask -/

/-- What the pass is inside of, and the offset where that began. -/
inductive Mode where
  | plain
  | lineComment
  | blockComment (start : Nat)
  | literal (start : Nat)

/-- A line comment is over before the line break; the mode changes with no character read. -/
def Mode.rank : Mode → Nat
  | .lineComment => 1
  | _ => 0

/-- Write on behind the mask. -/
def push (m : Mask) (cs : List Char) : Mask := { m with text := m.text ++ cs }

/-- Note the range of a literal. -/
def record (m : Mask) (range : Nat × Nat) : Mask := { m with literals := m.literals ++ [range] }

/-- The pass over the characters from an offset on. -/
def pass : Mode → Nat → Mask → List Char → Except Fault Mask
  | .plain, _, m, [] => .ok m
  | .plain, idx, m, '/' :: '*' :: cs => pass (.blockComment idx) (idx + 2) (m.push [' ', ' ']) cs
  | .plain, idx, m, '/' :: '/' :: cs => pass .lineComment (idx + 1) (m.push [' ']) ('/' :: cs)
  | .plain, idx, m, '"' :: cs => pass (.literal idx) (idx + 1) (m.push ['"']) cs
  | .plain, idx, m, c :: cs => pass .plain (idx + c.utf8Size) (m.push [c]) cs
  | .lineComment, _, m, [] => .ok m
  | .lineComment, idx, m, c :: cs =>
    if c = '\n' then pass .plain idx m (c :: cs)
    else pass .lineComment (idx + c.utf8Size) (m.push (blankOut c)) cs
  | .blockComment start, _, _, [] => .error ⟨.unclosedComment, start⟩
  | .blockComment _, idx, m, '*' :: '/' :: cs => pass .plain (idx + 2) (m.push [' ', ' ']) cs
  | .blockComment start, idx, m, c :: cs =>
    pass (.blockComment start) (idx + c.utf8Size) (m.push (blankOut c)) cs
  | .literal start, _, _, [] => .error ⟨.unclosedString, start⟩
  | .literal start, idx, m, '"' :: cs =>
    pass .plain (idx + 1) ((m.push ['"']).record (start, idx + 1)) cs
  | .literal start, idx, m, '\\' :: c :: cs =>
    pass (.literal start) (idx + 1 + c.utf8Size) (m.push (fillIn '\\' ++ fillIn c)) cs
  | .literal start, idx, m, c :: cs =>
    pass (.literal start) (idx + c.utf8Size) (m.push (fillIn c)) cs
termination_by mode _ _ cs => 2 * cs.length + mode.rank
decreasing_by all_goals simp only [List.length_cons, Mode.rank]; omega

/-- The mask of a declaration text. -/
def ofSource (source : List Char) : Except Fault Mask :=
  pass .plain 0 ⟨source, [], []⟩ source

/-! ### Structure -/

/-- The offsets of a character in a text that begins at an offset. -/
def offsetsOf (c : Char) (offset : Nat) : List Char → List Nat
  | [] => []
  | x :: cs =>
    if x = c then offset :: offsetsOf c (offset + x.utf8Size) cs
    else offsetsOf c (offset + x.utf8Size) cs

variable (m : Mask)

/-- The offset of the first `c` from an offset on. -/
def find? (c : Char) (start : Nat) : Checked (Option Nat) := do
  let bytes ← ByteReader.bytesFrom m.text start
  return (bytes.findIdx? (Text.byteIs (· == c))).map (start + ·)

/-- A range without the blanks at its ends; one of blanks leaves an empty one at its start. -/
def trimRange (start stop : Nat) : Checked (Nat × Nat) := do
  let text ← cutOut m.text start stop
  let leading := Text.byteLength text - Text.byteLength (text.dropWhile Text.isBlank)
  let trailing := Text.byteLength text - Text.byteLength (Text.trimEnd text)
  if leading = Text.byteLength text then return (start, start)
  else return (start + leading, stop - trailing)

/-- A range without blanks at its ends and semicolons in front, and what it cuts out. -/
def trimHeader (m : Mask) (start stop : Nat) : Checked ((Nat × Nat) × List Char) := do
  let (first, last) ← trimRange m start stop
  if isAt m.text (· == ';') first then m |>.trimHeader (first + 1) last
  else return ((first, last), ← cutOut m.text first last)
partial_fixpoint

/-- The mask up to an offset, with the literals on the way put back. -/
def restoreFrom (start stop : Nat) : List (Nat × Nat) → Checked (List Char)
  | [] => cutOut m.text start stop
  | (first, last) :: rest => do
    let before ← cutOut m.text start first
    let literal ← cutOut m.source first last
    return before ++ (literal ++ (← restoreFrom last stop rest))

def restore (start stop : Nat) : Checked (List Char) :=
  restoreFrom m start stop (m.literals.filter fun range => start ≤ range.1 && range.2 ≤ stop)

def value (start stop : Nat) : Checked BindingValue :=
  if m.literals.contains (start, stop) then
    return .quoted (String.ofList (← cutOut m.source start stop))
  else return .bare (String.ofList (← restore m start stop))

/-- The key and the value of one line of a block; a blank line has none. -/
def binding? (start stop : Nat) : Checked (Option (String × BindingValue)) := do
  let (first, last) ← trimRange m start stop
  if last ≤ first then return none
  else
    match (← find? m '=' first).filter (· < last) with
    | none => throw ⟨.missingEquals, first⟩
    | some equals =>
      let (keyStart, keyStop) ← trimRange m first equals
      if keyStop ≤ keyStart then throw ⟨.missingBindingKey, first⟩
      else
        let (valueStart, valueStop) ← trimRange m (equals + 1) last
        if valueStop ≤ valueStart then throw ⟨.missingBindingValue, equals⟩
        else
          let found ← value m valueStart valueStop
          return some (String.ofList (← restore m keyStart keyStop), found)

/-- The bindings of the lines that end at some offsets. -/
def bindingsOf (found : Bindings) (start : Nat) : List Nat → Checked Bindings
  | [] => return found
  | stop :: rest => do
    match ← binding? m start stop with
    | none => bindingsOf found (stop + 1) rest
    | some (key, value) => bindingsOf (Dictionary.insert key value found) (stop + 1) rest

def bindings (start stop : Nat) : Checked Bindings := do
  let body ← cutOut m.text start stop
  bindingsOf m [] start (offsetsOf ';' start body ++ [stop])

/-- One declaration from the ranges of its head and of its block. -/
def declaration (start stop bodyStart bodyStop : Nat) : Checked Declaration := do
  let ((first, _), header) ← trimHeader m start stop
  match (Text.encode header).findIdx? (Text.byteIs (· == ':')) with
  | none => throw ⟨.missingColon, first⟩
  | some colon =>
    let name := Text.trim (← cutOut header 0 colon)
    if name.isEmpty then throw ⟨.missingTagName, first⟩
    else
      let typeName := Text.trim (← cutOut header (colon + 1) (Text.byteLength header))
      if typeName.isEmpty then throw ⟨.missingTypeName, first + colon⟩
      else
        let found ← bindings m bodyStart bodyStop
        return ⟨String.ofList name, String.ofList typeName, found⟩

/-- The declarations from an offset on, added to those already found. -/
def declarations (m : Mask) (found : Declarations) (start : Nat) : Checked Declarations :=
  if Text.byteLength m.text ≤ start then return found
  else do
    match ← find? m '\x7b' start with
    | none =>
      let ((first, last), _) ← trimHeader m start (Text.byteLength m.text)
      if last ≤ first then return found else throw ⟨.missingBlock, first⟩
    | some opened =>
      match ← find? m '\x7d' opened with
      | none => throw ⟨.unclosedBlock, opened⟩
      | some closed =>
        let d ← declaration m start opened (opened + 1) closed
        if Dictionary.contains d.name found then
          let ((first, _), _) ← trimHeader m start opened
          throw ⟨.duplicateTagName d.name, first⟩
        else m |>.declarations (Dictionary.insert d.name d found) (closed + 1)
partial_fixpoint

/-- Read declarations by the mask that one pass makes. -/
def parse (source : List Char) : Checked Declarations := do
  let m ← ExceptT.mk (some (ofSource source))
  declarations m [] 0

end Mask

end PageEngine
