import PageEngine.Component.Class
import PageEngine.Text.Numeral

/-! Actions given as data: some changes to the values of the component, made in order, and
an outcome. -/

namespace PageEngine

/-- A change to the values of a component. -/
inductive Effect where
  | set (path : String) (value : Value)
  | copy (source target : String)
  /-- Add to a whole number; anything else counts as zero. -/
  | add (key : String) (amount : Int)
  deriving Repr

namespace Effect

/-- The whole number of a value, if it fits sixty-four bits. -/
def summand : Value → Int
  | .number (.whole i) => if Text.isWord i then i else 0
  | _ => 0

def apply (entries : Entries) : Effect → Entries
  | .set path value => entries.write path value
  | .copy source target => entries.write target (entries.read source)
  | .add key amount =>
    Dictionary.insert key (.number (.whole (summand (entries.get key) + amount))) entries

end Effect

structure Script where
  effects : List Effect
  outcome : Outcome
  deriving Repr

/-- The action that a script describes. -/
def Script.action (s : Script) : Action := fun entries =>
  (s.effects.foldl Effect.apply entries, s.outcome)

end PageEngine
