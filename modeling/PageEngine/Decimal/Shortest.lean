import PageEngine.Decimal.Double

/-! The shortest decimal digits that read back as a given number. The reals that round to a
number form an interval around it, with its ends when the significand is even. For one
digit, two, and so on, the two neighbours of the number on that decimal grid are tried; the
first grid with a neighbour inside wins, and of two the nearer. Seventeen digits always
suffice. -/

namespace PageEngine

/-- `coefficient · 10 ^ exponent`, the coefficient without trailing zeros. -/
structure Digits where
  coefficient : Nat
  exponent : Int
  deriving DecidableEq, Repr

namespace Digits

/-- Drop the trailing zeros of a coefficient. -/
def strip (coefficient : Nat) (exponent : Int) : Digits :=
  if h : coefficient ≠ 0 ∧ coefficient % 10 = 0 then strip (coefficient / 10) (exponent + 1)
  else ⟨coefficient, exponent⟩
termination_by coefficient
decreasing_by omega

/-- The power of ten of the leading digit of `num / den`. -/
def leadingPower (num den : Nat) : Int :=
  let p := Int.ofNat (Nat.toDigits 10 num).length - Int.ofNat (Nat.toDigits 10 den).length
  let reached := if 0 ≤ p then den * Nat.pow 10 p.toNat ≤ num else den ≤ num * Nat.pow 10 (-p).toNat
  if reached then p else p - 1

/-- The reals that round to a number: all in quarters of its last binary place. -/
structure Interval where
  low : Nat
  value : Nat
  high : Nat
  closed : Bool

def intervalOf (d : Double) : Interval :=
  let m := d.significand
  let below := if m = Double.leastFull ∧ d.exponent ≠ Double.leastExponent then 1 else 2
  ⟨4 * m - below, 4 * m, 4 * m + 2, m % 2 = 0⟩

/-- A grid with step `10 ^ power`, as whole numbers: `unit` quarters of the last place make
`scale` steps. -/
structure Grid where
  unit : Nat
  scale : Nat

def gridOf (d : Double) (power : Int) : Grid :=
  let e := d.exponent - 2
  let up := if power < 0 then Nat.pow 10 (-power).toNat else 1
  let down := if 0 ≤ power then Nat.pow 10 power.toNat else 1
  ⟨up <<< e.toNat, down <<< (-e).toNat⟩

/-- Whether the grid point `c` lies in the interval. -/
def Interval.holds (i : Interval) (g : Grid) (c : Nat) : Bool :=
  if i.closed then i.low * g.unit ≤ c * g.scale && c * g.scale ≤ i.high * g.unit
  else i.low * g.unit < c * g.scale && c * g.scale < i.high * g.unit

/-- The neighbour of the value on a grid that lies in the interval, the nearer one of two and
the even one of two equally near. -/
def nearest (i : Interval) (g : Grid) : Option Nat :=
  let target := i.value * g.unit
  let c := target / g.scale
  let toLower := target - c * g.scale
  let toUpper := (c + 1) * g.scale - target
  match i.holds g c, i.holds g (c + 1) with
  | true, true =>
    if toLower < toUpper || (toLower == toUpper && c % 2 == 0) then some c else some (c + 1)
  | true, false => some c
  | false, true => some (c + 1)
  | false, false => none

/-- Try the grids for ever more digits, `tries` of them, from the step `10 ^ power` on. -/
def search (d : Double) (power : Int) : Nat → Digits
  | 0 => ⟨0, 0⟩
  | tries + 1 =>
    match nearest (intervalOf d) (gridOf d power) with
    | some c => strip c power
    | none => search d (power - 1) tries

/-- The shortest digits of the magnitude of a number. -/
def ofDouble (d : Double) : Digits :=
  if d.isZero then ⟨0, 0⟩
  else
    let (num, den) :=
      if 0 ≤ d.exponent then (d.significand <<< d.exponent.toNat, 1)
      else (d.significand, 1 <<< (-d.exponent).toNat)
    search d (leadingPower num den) 18

/-- What is found is inside the interval. -/
theorem holds_of_nearest {i : Interval} {g : Grid} {c : Nat} (h : nearest i g = some c) :
    i.holds g c = true := by
  unfold nearest at h
  dsimp only at h
  split at h
  · rename_i h1 h2
    split at h
    · obtain rfl := Option.some.inj h; exact h1
    · obtain rfl := Option.some.inj h; exact h2
  · rename_i h1 _
    obtain rfl := Option.some.inj h; exact h1
  · rename_i _ h2
    obtain rfl := Option.some.inj h; exact h2
  · simp at h

end Digits

end PageEngine
