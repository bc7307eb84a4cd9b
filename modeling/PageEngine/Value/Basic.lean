import PageEngine.Dictionary
import PageEngine.Decimal.Double

/-! The values that components hold and bindings carry: null, truth values, numbers, texts,
lists and objects. A whole number and a double are different values even when they are
equal as numbers. -/

namespace PageEngine

/-- A number is whole or a double. -/
inductive Number where
  | whole (i : Int)
  | double (d : Double)
  deriving DecidableEq, Repr

namespace Number

def isZero : Number → Bool
  | .whole i => i == 0
  | .double d => d.isZero

/-- Equality of values: the sign of a double zero does not count. -/
def equal : Number → Number → Bool
  | .whole i, .whole j => i == j
  | .double d, .double e => d.equal e
  | _, _ => false

end Number

/-- A value. The fields of an object are in ascending order of key. -/
inductive Value where
  | null
  | bool (b : Bool)
  | number (n : Number)
  | text (s : String)
  | list (items : List Value)
  | object (fields : List (String × Value))
  deriving Repr, Inhabited

namespace Value

/-- A whole number. -/
def ofNat (n : Nat) : Value :=
  .number (.whole (Int.ofNat n))

/-- Null, false and zero are false; everything else is true, empty texts and lists too. -/
def isTrue : Value → Bool
  | .null => false
  | .bool b => b
  | .number n => !n.isZero
  | .text _ => true
  | .list _ => true
  | .object _ => true

mutual

/-- Equality of values, fields and items in order. -/
def equal : Value → Value → Bool
  | .null, .null => true
  | .bool a, .bool b => a == b
  | .number m, .number n => m.equal n
  | .text s, .text t => s == t
  | .list xs, .list ys => equalItems xs ys
  | .object xs, .object ys => equalFields xs ys
  | _, _ => false

def equalItems : List Value → List Value → Bool
  | [], [] => true
  | x :: xs, y :: ys => equal x y && equalItems xs ys
  | _, _ => false

def equalFields : List (String × Value) → List (String × Value) → Bool
  | [], [] => true
  | (k, x) :: xs, (l, y) :: ys => k == l && equal x y && equalFields xs ys
  | _, _ => false

end

/-- The items of a list; null has none and anything else is the only one. -/
def items : Value → List Value
  | .list items => items
  | .null => []
  | single => [single]

/-- The fields of an object; anything else has none. -/
def fields : Value → Dictionary Value
  | .object fields => fields
  | _ => []

end Value

end PageEngine
