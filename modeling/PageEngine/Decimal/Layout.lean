import PageEngine.Decimal.Shortest

/-! How chosen digits are written: where the point goes, when a power of ten is used
instead, and whether a whole number shows a decimal. -/

namespace PageEngine

/-- The decisions of a number format. -/
structure DecimalLayout where
  /-- Numbers whose leading digit has one of these powers of ten are written with a plain
  point; without bounds, all are. -/
  positional : Option (Int × Int)
  /-- Whether a whole number ends in `.0`. -/
  pointZero : Bool

namespace DecimalLayout

/-- Data texts write a point from 10^-5 up to below 10^16, and at least one decimal. -/
def data : DecimalLayout := ⟨some (-5, 15), true⟩

/-- Settings write all digits and no superfluous decimal. -/
def plain : DecimalLayout := ⟨none, false⟩

/-- Digits with a point: `power` is the power of ten of the last digit. -/
def positionalText (layout : DecimalLayout) (digits : List Char) (power : Int) : List Char :=
  if 0 ≤ power then
    digits ++ List.replicate power.toNat '0' ++ if layout.pointZero then ['.', '0'] else []
  else
    let places := (-power).toNat
    if places < digits.length then
      digits.take (digits.length - places) ++ '.' :: digits.drop (digits.length - places)
    else '0' :: '.' :: List.replicate (places - digits.length) '0' ++ digits

/-- Digits with a point after the first and a power of ten with its sign. -/
def scaledText (digits : List Char) (leading : Int) : List Char :=
  let mantissa :=
    match digits with
    | d :: e :: rest => d :: '.' :: e :: rest
    | _ => digits
  let sign := if leading < 0 then '-' else '+'
  mantissa ++ 'e' :: sign :: Nat.toDigits 10 leading.natAbs

/-- Write a number. -/
def write (layout : DecimalLayout) (d : Double) : List Char :=
  let shortest := Digits.ofDouble d
  let digits := Nat.toDigits 10 shortest.coefficient
  let leading := shortest.exponent + Int.ofNat digits.length - 1
  let isPositional := d.isZero || match layout.positional with
    | none => true
    | some (least, greatest) => least ≤ leading && leading ≤ greatest
  let text :=
    if isPositional then layout.positionalText digits shortest.exponent
    else scaledText digits leading
  if d.negative then '-' :: text else text

end DecimalLayout

end PageEngine
