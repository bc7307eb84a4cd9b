import PageEngine.Settings.Document.Space

/-! Quoted texts of a TOML document. Double quotes allow escapes, single quotes do not. One
quote on each side makes a text within a line; three make a long text, which may run over
several lines. A reader is given what follows the opening quotes. -/

namespace PageEngine.Document

/-- The characters that a backslash and one letter stand for. -/
def letterEscape? : Char → Option Char
  | 'b' => some '\x08'
  | 't' => some '\t'
  | 'n' => some '\n'
  | 'f' => some '\x0c'
  | 'r' => some '\r'
  | 'e' => some '\x1b'
  | '"' => some '"'
  | '\\' => some '\\'
  | _ => none

/-- The number of digits of a character code after a backslash and a letter. -/
def codeLength? : Char → Option Nat
  | 'x' => some 2
  | 'u' => some 4
  | 'U' => some 8
  | _ => none

/-- The value of a digit in some base up to sixteen. -/
def digitIn? (base : Nat) (c : Char) : Option Nat :=
  let value :=
    if c.isDigit then c.toNat - '0'.toNat
    else if 'a' ≤ c ∧ c ≤ 'f' then c.toNat - 'a'.toNat + 10
    else if 'A' ≤ c ∧ c ≤ 'F' then c.toNat - 'A'.toNat + 10
    else base
  if value < base then some value else none

/-- The number that digits in some base write. -/
def digitsIn? (base : Nat) (digits : List Char) : Option Nat :=
  digits.foldlM (fun n c => (digitIn? base c).map (base * n + ·)) 0

/-- The character that stands for an escape, and how much of the text after the backslash
belongs to the escape. -/
def escape? : List Char → Option (Char × Nat)
  | [] => none
  | c :: cs =>
    match codeLength? c with
    | none => (letterEscape? c).map (·, 1)
    | some n => do
      let code ← digitsIn? 16 (cs.take n)
      if (cs.take n).length = n ∧ code.isValidChar then some (Char.ofNat code, n + 1) else none

/-- Read a text within a line up to its closing quote. -/
def readShort (quote : Char) : List Char → Option (List Char × List Char)
  | [] => none
  | c :: cs =>
    if c = quote then some ([], cs)
    else if c = '\\' ∧ quote = '"' then do
      let (character, n) ← escape? cs
      let (body, rest) ← readShort quote (cs.drop n)
      return (character :: body, rest)
    else if isPlain c then do
      let (body, rest) ← readShort quote cs
      return (c :: body, rest)
    else none
termination_by cs => cs.length
decreasing_by all_goals simp; try omega

/-- Plain characters other than the quote and the backslash stand for themselves. -/
theorem readShort_append {quote : Char} {body : List Char}
    (h : ∀ c ∈ body, c ≠ quote ∧ c ≠ '\\' ∧ isPlain c = true) (rest : List Char) :
    readShort quote (body ++ quote :: rest) = some (body, rest) := by
  induction body with
  | nil => simp [readShort]
  | cons c body ih =>
    obtain ⟨hq, hb, hp⟩ := h c (by simp)
    have hrest := ih fun d hd => h d (by simp [hd])
    simp [readShort, hq, hb, hp, hrest]

/-- Where three quotes close a long text: the quotes before them that belong to the text,
at most two, and the rest. -/
def closing? (quote : Char) (cs : List Char) : Option (List Char × List Char) :=
  let run := (cs.takeWhile (· == quote)).length
  if run < 3 then none
  else some (List.replicate (min run 5 - 3) quote, cs.drop (min run 5))

/-- Read a long text up to its closing quotes. A backslash at the end of a line folds the
line and all blank space after it away; `folding` says that this is going on. -/
def readLong (quote : Char) (folding : Bool) : List Char → Option (List Char × List Char)
  | [] => none
  | c :: cs =>
    match closing? quote (c :: cs) with
    | some closed => some closed
    | none =>
      if folding && (isSpace c || c == '\n' || (afterLineEnd? (c :: cs)).isSome) then
        readLong quote true cs
      else if c = '\\' ∧ quote = '"' then
        if (afterLineEnd? (skipSpace cs)).isSome then readLong quote true cs
        else do
          let (character, n) ← escape? cs
          let (body, rest) ← readLong quote false (cs.drop n)
          return (character :: body, rest)
      else if isPlain c || c == '\n' || (afterLineEnd? (c :: cs)).isSome then do
        let (body, rest) ← readLong quote false cs
        return (c :: body, rest)
      else none
termination_by cs => cs.length
decreasing_by all_goals simp; try omega

/-- Read a quoted text if one starts here. A line end right after the opening quotes of a
long text is not part of it. -/
def readQuoted (cs : List Char) : Option (String × List Char) := do
  let (body, rest) ← match cs with
    | '"' :: '"' :: '"' :: rest => readLong '"' false ((afterLineEnd? rest).getD rest)
    | '\'' :: '\'' :: '\'' :: rest => readLong '\'' false ((afterLineEnd? rest).getD rest)
    | '"' :: rest => readShort '"' rest
    | '\'' :: rest => readShort '\'' rest
    | _ => none
  return (String.ofList body, rest)

end PageEngine.Document
