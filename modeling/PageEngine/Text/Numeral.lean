/-! Whole numbers in decimal. A numeral is a non-empty run of digits; leading zeros are
allowed. An unsigned numeral may have a plus sign in front, a signed one also a minus. -/

namespace PageEngine.Text

/-- The value of a decimal digit. -/
def digitValue (c : Char) : Nat :=
  c.toNat - '0'.toNat

/-- The number written by a run of digits, continuing from `acc`. -/
def digitsValue (acc : Nat) : List Char → Option Nat
  | [] => some acc
  | c :: cs => if c.isDigit then digitsValue (10 * acc + digitValue c) cs else none

/-- Read a numeral. -/
def readDigits : List Char → Option Nat
  | [] => none
  | cs => digitsValue 0 cs

/-- Read a numeral that may have a plus sign. -/
def readUnsigned : List Char → Option Nat
  | '+' :: cs => readDigits cs
  | cs => readDigits cs

/-- Read a numeral that may have a sign. -/
def readSigned : List Char → Option Int
  | '+' :: cs => (readDigits cs).map Int.ofNat
  | '-' :: cs => (readDigits cs).map fun n => -Int.ofNat n
  | cs => (readDigits cs).map Int.ofNat

/-- Whether an integer fits sixty-four bits with a sign. -/
def isWord (i : Int) : Bool :=
  -0x8000000000000000 ≤ i && i < 0x8000000000000000

end PageEngine.Text
