import PageEngine.Decimal.Layout
import PageEngine.Decimal.Reading
import PageEngine.Dictionary

/-! Data of settings, and what each datum may stand for. A setting says what it wants and
takes any scalar that can be understood so: a truth value, a count, or a text. Lists and
tables stand for none of these. -/

namespace PageEngine

/-- A number with a fraction; it may also be without limit, or no number at all. -/
inductive Magnitude where
  | finite (d : Double)
  | infinite (negative : Bool)
  | indefinite
  deriving DecidableEq, Repr

namespace Magnitude

/-- The nearest magnitude; a decimal beyond the largest double is without limit. -/
def ofDecimal (d : Decimal) : Magnitude :=
  match d.toDouble? with
  | some x => .finite x
  | none => .infinite d.negative

def isZero : Magnitude → Bool
  | .finite d => d.isZero
  | _ => false

/-- The nearest count up to `greatest`; half is rounded upwards, what is negative or no
number counts as none. -/
def clamp (greatest : Nat) : Magnitude → Nat
  | .finite d => if d.negative then 0 else min d.roundHalfUp greatest
  | .infinite negative => if negative then 0 else greatest
  | .indefinite => 0

theorem clamp_le (greatest : Nat) (m : Magnitude) : m.clamp greatest ≤ greatest := by
  cases m with
  | finite d => simp only [clamp]; split <;> omega
  | infinite negative => simp only [clamp]; split <;> omega
  | indefinite => exact Nat.zero_le _

def text : Magnitude → String
  | .finite d => String.ofList (DecimalLayout.plain.write d)
  | .infinite negative => if negative then "-inf" else "inf"
  | .indefinite => "NaN"

end Magnitude

/-- A datum. A gap is a place in a list that was never filled. -/
inductive Datum where
  | gap
  | truth (value : Bool)
  | whole (value : Int)
  | real (value : Magnitude)
  | text (value : String)
  | list (items : List Datum)
  | table (entries : List (String × Datum))
  deriving Repr, Inhabited

namespace Datum

/-- The entries of a table; anything else has none. -/
def entries : Datum → Dictionary Datum
  | .table entries => entries
  | _ => []

/-- The items of a list; anything else has none. -/
def items : Datum → List Datum
  | .list items => items
  | _ => []

/-- The words for a truth value, in any case of letters. -/
def truthOfWord? (word : String) : Option Bool :=
  if word.toLower ∈ ["true", "on", "yes"] then some true
  else if word.toLower ∈ ["false", "off", "no"] then some false
  else none

/-- The largest count. -/
def greatestCount : Nat := 0xFFFFFFFFFFFFFFFF

/-- Understood as a truth value: a number that is not zero is true. -/
def truth? : Datum → Option Bool
  | .truth value => some value
  | .whole value => some (value != 0)
  | .real value => some !value.isZero
  | .text value =>
    if value = "1" then some true else if value = "0" then some false else truthOfWord? value
  | _ => none

/-- Understood as a count: true is one and false is zero. -/
def count? : Datum → Option Nat
  | .truth value => some value.toNat
  | .whole value => value.toNat?
  | .real value => some (value.clamp greatestCount)
  | .text value =>
    match truthOfWord? value with
    | some meaning => some meaning.toNat
    | none => (Text.readUnsigned value.toList).filter (· ≤ greatestCount)
  | _ => none

/-- Understood as a text. -/
def text? : Datum → Option String
  | .truth value => some (if value then "true" else "false")
  | .whole value => some (toString value)
  | .real value => some value.text
  | .text value => some value
  | _ => none

/-- Understood as a list of texts; only a list is. -/
def texts? : Datum → Option (List String)
  | .list items => items.mapM text?
  | _ => none

end Datum

end PageEngine
