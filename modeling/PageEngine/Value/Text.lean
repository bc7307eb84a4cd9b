import PageEngine.Value.Basic
import PageEngine.Decimal.Layout

/-! The text of a value. A text stands for itself; null has no text; everything else is
written as compact JSON. -/

namespace PageEngine.Value

/-- A lower-case hexadecimal digit. -/
def hexDigit (n : Nat) : Char :=
  if n < 10 then Char.ofNat ('0'.toNat + n) else Char.ofNat ('a'.toNat + n - 10)

/-- A character inside a quoted text: quotes, backslashes and control characters are
escaped. -/
def escapeChar (c : Char) : List Char :=
  if c = '"' then ['\\', '"']
  else if c = '\\' then ['\\', '\\']
  else if c = '\x08' then ['\\', 'b']
  else if c = '\x0c' then ['\\', 'f']
  else if c = '\n' then ['\\', 'n']
  else if c = '\r' then ['\\', 'r']
  else if c = '\t' then ['\\', 't']
  else if c.toNat < 0x20 then
    ['\\', 'u', '0', '0', hexDigit (c.toNat / 16), hexDigit (c.toNat % 16)]
  else [c]

def quote (s : String) : List Char :=
  '"' :: s.toList.flatMap escapeChar ++ ['"']

def wholeText (i : Int) : List Char :=
  match i with
  | .ofNat n => Nat.toDigits 10 n
  | .negSucc n => '-' :: Nat.toDigits 10 (n + 1)

def numberText : Number → List Char
  | .whole i => wholeText i
  | .double d => DecimalLayout.data.write d

mutual

/-- A value as compact JSON. -/
def json : Value → List Char
  | .null => ['n', 'u', 'l', 'l']
  | .bool true => ['t', 'r', 'u', 'e']
  | .bool false => ['f', 'a', 'l', 's', 'e']
  | .number n => numberText n
  | .text s => quote s
  | .list [] => ['[', ']']
  | .list (x :: xs) => '[' :: json x ++ jsonItems xs
  | .object [] => [Char.ofNat 0x7B, Char.ofNat 0x7D]
  | .object ((k, v) :: rest) => Char.ofNat 0x7B :: quote k ++ ':' :: json v ++ jsonFields rest

/-- The further items of a list, each after a comma, and the closing bracket. -/
def jsonItems : List Value → List Char
  | [] => [']']
  | x :: xs => ',' :: json x ++ jsonItems xs

/-- The further fields of an object, each after a comma, and the closing brace. -/
def jsonFields : List (String × Value) → List Char
  | [] => [Char.ofNat 0x7D]
  | (k, v) :: rest => ',' :: quote k ++ ':' :: json v ++ jsonFields rest

end

/-- The text shown for a value; null shows none. -/
def display? : Value → Option String
  | .null => none
  | .text s => some s
  | v => some (String.ofList (json v))

/-- The text shown for a value, empty for null. -/
def display (v : Value) : String :=
  v.display?.getD ""

end PageEngine.Value
