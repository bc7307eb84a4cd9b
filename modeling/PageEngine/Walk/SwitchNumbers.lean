import PageEngine.Element.Basic

/-! The numbers that a switch gives to component names. Each switch counts on its own: a
name is numbered when it is first used, and keeps its number. -/

namespace PageEngine

/-- The position of a name, and the names with it added at the end if it was not there. -/
def numberName (name : String) : List String → Nat × List String
  | [] => (0, [name])
  | n :: rest =>
    if n = name then (0, n :: rest)
    else
      let (i, rest) := numberName name rest
      (i + 1, n :: rest)

/-- The names used by each switch, in order of first use. -/
abbrev SwitchNumbers := List (Site × List String)

namespace SwitchNumbers

def namesAt (site : Site) (numbers : SwitchNumbers) : List String :=
  (numbers.lookup site).getD []

/-- The number of a name at a switch. -/
def number (site : Site) (name : String) : SwitchNumbers → Nat × SwitchNumbers
  | [] => (0, [(site, [name])])
  | (s, names) :: rest =>
    if s = site then
      let (i, names) := numberName name names
      (i, (s, names) :: rest)
    else
      let (i, rest) := number site name rest
      (i, (s, names) :: rest)

end SwitchNumbers

theorem getElem?_numberName (name : String) (names : List String) :
    (numberName name names).2[(numberName name names).1]? = some name := by
  induction names with
  | nil => rfl
  | cons n rest ih =>
    rw [numberName]
    split
    · rename_i h
      simp [h]
    · simpa using ih

theorem isPrefix_numberName (name : String) (names : List String) :
    names <+: (numberName name names).2 := by
  induction names with
  | nil => exact List.nil_prefix
  | cons n rest ih =>
    rw [numberName]
    split
    · exact List.prefix_refl _
    · simpa using ih

end PageEngine
