/-! Finite binary floating-point numbers of sixty-four bits, kept as exact data: a sign and
`significand · 2 ^ exponent`. A number has one form: the significand is below 2^53, and at
least 2^52 unless the exponent is the least. Rounding to the nearest number, half to the
even significand, is done in whole-number arithmetic. -/

namespace PageEngine

/-- `± significand · 2 ^ exponent`. Zero has a sign too. -/
structure Double where
  negative : Bool
  significand : Nat
  exponent : Int
  deriving DecidableEq, Repr, Inhabited

namespace Double

/-- The exponent of the smallest numbers. -/
def leastExponent : Int := -1074

/-- The exponent of the largest numbers. -/
def greatestExponent : Int := 971

/-- Significands are below this power of two, 2^53. -/
def significandBound : Nat := 1 <<< 53

/-- The least significand with all bits in use, 2^52. -/
def leastFull : Nat := 1 <<< 52

/-- The one form of a number. -/
structure Canonical (d : Double) : Prop where
  significand_lt : d.significand < significandBound
  least_le : leastExponent ≤ d.exponent
  le_greatest : d.exponent ≤ greatestExponent
  full : leastFull ≤ d.significand ∨ d.exponent = leastExponent

def zero (negative : Bool) : Double :=
  ⟨negative, 0, leastExponent⟩

def isZero (d : Double) : Bool :=
  d.significand == 0

/-- Equality of the numbers themselves: the sign of zero does not count. -/
def equal (a b : Double) : Bool :=
  a == b || (a.isZero && b.isZero)

/-- The quotient of two whole numbers, rounded to the nearest, a half to the even neighbour. -/
def roundQuotient (num den : Nat) : Nat :=
  let q := num / den
  let r := num % den
  if 2 * r < den then q
  else if den < 2 * r then q + 1
  else q + q % 2

/-- `num / den / 2 ^ e` as a quotient of whole numbers. -/
def scaleQuotient (num den : Nat) (e : Int) : Nat × Nat :=
  if 0 ≤ e then (num, den <<< e.toNat) else (num <<< (-e).toNat, den)

/-- The exponent at which `num / den` has fifty-three bits before the point, or the least. -/
def fittingExponent (num den : Nat) : Int :=
  let e := max (Int.ofNat num.log2 - Int.ofNat den.log2 - 53) leastExponent
  let (n, d) := scaleQuotient num den e
  if n / d < significandBound then e else e + 1

/-- The number nearest to `± num / den`, if the quotient is not beyond the largest. -/
def ofQuotient (negative : Bool) (num den : Nat) : Option Double :=
  let e := fittingExponent num den
  let (n, d) := scaleQuotient num den e
  let q := roundQuotient n d
  let (q, e) := if q = significandBound then (leastFull, e + 1) else (q, e)
  if q = 0 then some (zero negative)
  else if greatestExponent < e then none
  else some ⟨negative, q, e⟩

/-- The magnitude without its fraction. -/
def truncate (d : Double) : Nat :=
  if 0 ≤ d.exponent then d.significand <<< d.exponent.toNat
  else d.significand >>> (-d.exponent).toNat

/-- The magnitude rounded to a whole number, a half upwards. -/
def roundHalfUp (d : Double) : Nat :=
  if 0 ≤ d.exponent then d.truncate
  else
    let den := 1 <<< (-d.exponent).toNat
    (2 * d.significand + den) / (2 * den)

/-- A rounded quotient is within half of the divisor. -/
theorem two_mul_roundQuotient_le {num den : Nat} (h : 0 < den) :
    2 * (roundQuotient num den * den) ≤ 2 * num + den := by
  have hd := Nat.div_add_mod num den
  have hr := Nat.mod_lt num h
  simp only [roundQuotient]
  split
  · rw [Nat.mul_comm (num / den)]; omega
  · split
    · rw [Nat.add_mul, Nat.mul_comm (num / den)]; omega
    · rcases Nat.mod_two_eq_zero_or_one (num / den) with h2 | h2
      · rw [h2, Nat.add_zero, Nat.mul_comm (num / den)]; omega
      · rw [h2, Nat.add_mul, Nat.mul_comm (num / den)]; omega

theorem le_two_mul_roundQuotient {num den : Nat} (h : 0 < den) :
    2 * num ≤ 2 * (roundQuotient num den * den) + den := by
  have hd := Nat.div_add_mod num den
  have hr := Nat.mod_lt num h
  simp only [roundQuotient]
  split
  · rw [Nat.mul_comm (num / den)]; omega
  · split
    · rw [Nat.add_mul, Nat.mul_comm (num / den)]; omega
    · rcases Nat.mod_two_eq_zero_or_one (num / den) with h2 | h2
      · rw [h2, Nat.add_zero, Nat.mul_comm (num / den)]; omega
      · rw [h2, Nat.add_mul, Nat.mul_comm (num / den)]; omega

end Double

end PageEngine
