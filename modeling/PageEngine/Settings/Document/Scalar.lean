import PageEngine.Settings.Datum
import PageEngine.Settings.Document.Quoted
import PageEngine.Text.Segments

/-! Unquoted values of a TOML document: truth values, whole numbers in four bases, numbers
with a fraction, and dates and times. A date or time is checked and becomes a text. -/

namespace PageEngine.Document

/-- Characters of unquoted values. -/
def isWordChar (c : Char) : Bool :=
  c.isAlphanum || c == '_' || c == '+' || c == '-' || c == '.' || c == ':'

/-- Digits without the underscores between them; an underscore needs a digit on each side. -/
def ungroup? (isDigit : Char → Bool) : List Char → Option (List Char)
  | [] => none
  | [c] => if isDigit c then some [c] else none
  | c :: '_' :: cs => if isDigit c then (ungroup? isDigit cs).map (c :: ·) else none
  | c :: cs => if isDigit c then (ungroup? isDigit cs).map (c :: ·) else none

/-- Decimal digits without leading zeros. -/
def decimal? (cs : List Char) : Option (List Char) :=
  match ungroup? Char.isDigit cs with
  | some ['0'] => some ['0']
  | some ('0' :: _) => none
  | digits => digits

/-- A whole number that fits sixty-four bits. -/
def wordSized? (i : Int) : Option Datum :=
  if Text.isWord i then some (.whole i) else none

/-- A whole number in a base other than ten. -/
def based? (base : Nat) (cs : List Char) : Option Datum := do
  let digits ← ungroup? (fun c => (digitIn? base c).isSome) cs
  wordSized? (Int.ofNat (← digitsIn? base digits))

/-- A number in decimal, after its sign. -/
def unsigned? (negative : Bool) (cs : List Char) : Option Datum :=
  let isMark := fun c : Char => c == 'e' || c == 'E'
  let mantissa := cs.takeWhile fun c => !isMark c
  let power := (cs.dropWhile fun c => !isMark c).drop 1
  let hasPower := mantissa.length != cs.length
  match Text.segments '.' mantissa with
  | (whole, []) => do
    let digits ← decimal? whole
    if hasPower then scaled negative digits [] power
    else
      let n ← Text.readDigits digits
      wordSized? (if negative then -Int.ofNat n else Int.ofNat n)
  | (whole, [fraction]) => do
    let digits ← decimal? whole
    let places ← ungroup? Char.isDigit fraction
    scaled negative digits places (if hasPower then power else ['0'])
  | _ => none
where
  /-- A number with a fraction or a power of ten, unless it is beyond the largest. -/
  scaled (negative : Bool) (whole fraction power : List Char) : Option Datum := do
    let (isNegative, digits) := Decimal.readSign power
    let digits ← ungroup? Char.isDigit digits
    let p ← Text.readDigits digits
    let coefficient ← Text.readDigits (whole ++ fraction)
    let power := if isNegative then -Int.ofNat p else Int.ofNat p
    let d ← Decimal.toDouble? ⟨negative, coefficient, power - Int.ofNat fraction.length⟩
    return .real (.finite d)

/-- A number or a truth value. -/
def number? : List Char → Option Datum
  | ['t', 'r', 'u', 'e'] => some (.truth true)
  | ['f', 'a', 'l', 's', 'e'] => some (.truth false)
  | '0' :: 'x' :: cs => based? 16 cs
  | '0' :: 'o' :: cs => based? 8 cs
  | '0' :: 'b' :: cs => based? 2 cs
  | cs =>
    let (negative, rest) := Decimal.readSign cs
    match rest with
    | ['i', 'n', 'f'] => some (.real (.infinite negative))
    | ['n', 'a', 'n'] => some (.real .indefinite)
    | rest => unsigned? negative rest

/-! ### Dates and times -/

/-- A number of two digits within bounds. -/
def pair? (least greatest : Nat) (a b : Char) : Option Nat := do
  let n ← Text.readDigits [a, b]
  if least ≤ n ∧ n ≤ greatest then some n else none

/-- The days of a month. -/
def daysIn (year month : Nat) : Nat :=
  if month = 2 then
    if year % 4 = 0 ∧ (year % 100 ≠ 0 ∨ year % 400 = 0) then 29 else 28
  else if month ∈ [4, 6, 9, 11] then 30
  else 31

/-- A date of ten characters, and the rest. -/
def date? : List Char → Option (List Char × List Char)
  | y :: e :: a :: r :: '-' :: m :: n :: '-' :: d :: f :: cs => do
    let year ← Text.readDigits [y, e, a, r]
    let month ← pair? 1 12 m n
    let _ ← pair? 1 (daysIn year month) d f
    return ([y, e, a, r, '-', m, n, '-', d, f], cs)
  | _ => none

/-- The digits of a fraction of a second: nine at most count, zeros at the end do not. -/
def fractionText (digits : List Char) : List Char :=
  match ((digits.take 9).reverse.dropWhile (· == '0')).reverse with
  | [] => ['.', '0']
  | digits => '.' :: digits

/-- The seconds of a time if it has some, with their fraction, and the rest. -/
def seconds? : List Char → Option (List Char × List Char)
  | ':' :: s :: t :: '.' :: cs => do
    let _ ← pair? 0 60 s t
    let digits := cs.takeWhile Char.isDigit
    if digits.isEmpty then none
    else some (':' :: s :: t :: fractionText digits, cs.dropWhile Char.isDigit)
  | ':' :: s :: t :: cs => (pair? 0 60 s t).map fun _ => ([':', s, t], cs)
  | ':' :: _ => none
  | cs => some ([], cs)

/-- A time of the day, and the rest. -/
def time? : List Char → Option (List Char × List Char)
  | h :: i :: ':' :: m :: n :: cs => do
    let _ ← pair? 0 23 h i
    let _ ← pair? 0 59 m n
    let (seconds, rest) ← seconds? cs
    return (h :: i :: ':' :: m :: n :: seconds, rest)
  | _ => none

/-- The distance of a time from universal time. -/
def offset? : List Char → Option (List Char)
  | [] => some []
  | ['Z'] | ['z'] => some ['Z']
  | [s, h, i, ':', m, n] => do
    let hours ← pair? 0 23 h i
    let minutes ← pair? 0 59 m n
    if s = '+' ∨ s = '-' ∧ hours + minutes = 0 then some ['+', h, i, ':', m, n]
    else if s = '-' then some ['-', h, i, ':', m, n]
    else none
  | _ => none

/-- A time, a date, or both with a letter or a space between and maybe an offset. -/
def moment? (cs : List Char) : Option Datum :=
  let written? : Option (List Char) :=
    match date? cs with
    | none =>
      match time? cs with
      | some (time, []) => some time
      | _ => none
    | some (date, []) => some date
    | some (date, mark :: rest) =>
      if mark = 'T' ∨ mark = 't' ∨ mark = ' ' then do
        let (time, rest) ← time? rest
        return date ++ 'T' :: time ++ (← offset? rest)
      else none
  written?.map fun written => .text (String.ofList written)

/-- Read an unquoted value. Only between a date and a time may it hold a space. -/
def readWord (cs : List Char) : Option (Datum × List Char) :=
  let word := cs.takeWhile isWordChar
  let rest := cs.dropWhile isWordChar
  match number? word with
  | some d => some (d, rest)
  | none =>
    match (date? word).filter (·.2.isEmpty), rest with
    | some _, ' ' :: digit :: rest' =>
      if digit.isDigit then
        (moment? (word ++ ' ' :: (digit :: rest').takeWhile isWordChar)).map
          (·, (digit :: rest').dropWhile isWordChar)
      else (moment? word).map (·, rest)
    | _, _ => (moment? word).map (·, rest)

end PageEngine.Document
