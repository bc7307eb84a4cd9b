import PageEngine.Decimal.Double
import PageEngine.Text.Numeral

/-! Decimal numbers written with an optional sign, digits around at most one point, and an
optional power of ten. The text is read exactly; only then is it rounded. -/

namespace PageEngine

/-- `± coefficient · 10 ^ exponent`. -/
structure Decimal where
  negative : Bool
  coefficient : Nat
  exponent : Int
  deriving DecidableEq, Repr

namespace Decimal

/-- Powers of ten beyond which every number is rounded to zero or is too large. -/
def reach : Int := 400

/-- The nearest double, if the number is not beyond the largest. -/
def toDouble? (d : Decimal) : Option Double :=
  let digits := Int.ofNat (Nat.toDigits 10 d.coefficient).length
  if d.coefficient = 0 then some (Double.zero d.negative)
  else if reach < digits + d.exponent then none
  else if digits + d.exponent < -reach then some (Double.zero d.negative)
  else if 0 ≤ d.exponent then
    Double.ofQuotient d.negative (d.coefficient * Nat.pow 10 d.exponent.toNat) 1
  else Double.ofQuotient d.negative d.coefficient (Nat.pow 10 (-d.exponent).toNat)

/-- Split off a sign: whether it is a minus, and the rest. -/
def readSign : List Char → Bool × List Char
  | '+' :: cs => (false, cs)
  | '-' :: cs => (true, cs)
  | cs => (false, cs)

/-- Read the digits around a point; there has to be one digit. -/
def readUnscaled (negative : Bool) (cs : List Char) : Option Decimal :=
  let whole := cs.takeWhile Char.isDigit
  let fraction :=
    match cs.dropWhile Char.isDigit with
    | [] => some []
    | '.' :: rest => some rest
    | _ => none
  match fraction with
  | none => none
  | some fraction =>
    (Text.readDigits (whole ++ fraction)).map fun coefficient =>
      ⟨negative, coefficient, -Int.ofNat fraction.length⟩

/-- Read a number without a power of ten. -/
def readPlain (cs : List Char) : Option Decimal :=
  let (negative, rest) := readSign cs
  readUnscaled negative rest

/-- Read a number that may end in `e` and a power of ten. -/
def read (cs : List Char) : Option Decimal :=
  let (negative, rest) := readSign cs
  let isMark := fun c : Char => c == 'e' || c == 'E'
  let mantissa := rest.takeWhile fun c => !isMark c
  match rest.dropWhile fun c => !isMark c with
  | [] => readUnscaled negative mantissa
  | _ :: power => do
    let d ← readUnscaled negative mantissa
    let p ← Text.readSigned power
    return { d with exponent := d.exponent + p }

end Decimal

end PageEngine
