import PageEngine.Text.Numeral
import PageEngine.Text.Segments

/-! The place of an element on a page: one index for every branch from the page down. An index
is a word of 32 bits, and none comes after the largest one. Written, the indices stand in
decimal with dots between them, and the empty path is the empty text. The indices are kept
innermost first, where a walk changes them. -/

namespace PageEngine

/-- The indices of a place, innermost first. -/
structure ElementPath where
  indices : List UInt32
  deriving DecidableEq, Repr, Inhabited

namespace ElementPath

def empty : ElementPath := ⟨[]⟩

/-- The path with the given indices, outermost first. -/
def ofList (indices : List UInt32) : ElementPath := ⟨indices.reverse⟩

/-- The indices, outermost first. -/
def toList (path : ElementPath) : List UInt32 := path.indices.reverse

def depth (path : ElementPath) : Nat := path.indices.length

def isEmpty (path : ElementPath) : Bool := path.indices.isEmpty

/-- Go down one branch, to the given index. -/
def enter (path : ElementPath) (index : UInt32) : ElementPath := ⟨index :: path.indices⟩

/-- Go back up, if there is a branch to leave. -/
def leave? (path : ElementPath) : Option ElementPath :=
  match path.indices with
  | [] => none
  | _ :: outer => some ⟨outer⟩

/-- The largest index. -/
def maxIndex : UInt32 := 0xFFFFFFFF

/-- The next sibling. Behind the largest index there is none: the word overflows, which is an error
wherever overflow is checked, and counting on from zero would give two siblings one path. The empty
path has no index and stays. -/
def next? (path : ElementPath) : Option ElementPath :=
  match path.indices with
  | [] => some path
  | index :: outer => if index = maxIndex then none else some ⟨(index + 1) :: outer⟩

/-- The written path. -/
def text (path : ElementPath) : String :=
  ".".intercalate (path.toList.map fun index => String.ofList (Nat.toDigits 10 index.toNat))

/-- Read one index: a numeral that may have a plus sign. -/
def readIndex (cs : List Char) : Option UInt32 :=
  ((Text.readUnsigned cs).filter (· ≤ maxIndex.toNat)).map UInt32.ofNat

/-- Read a written path. -/
def read (text : String) : Option ElementPath :=
  if text.isEmpty then some empty
  else
    let (first, rest) := Text.segments '.' text.toList
    ((first :: rest).mapM readIndex).map ofList

@[simp] theorem toList_empty : empty.toList = [] := rfl

@[simp] theorem toList_ofList (indices : List UInt32) : (ofList indices).toList = indices := by
  simp [ofList, toList]

@[simp] theorem ofList_toList (path : ElementPath) : ofList path.toList = path := by
  simp [ofList, toList]

@[simp] theorem toList_enter (path : ElementPath) (index : UInt32) :
    (path.enter index).toList = path.toList ++ [index] := by
  simp [enter, toList]

@[simp] theorem leave?_enter (path : ElementPath) (index : UInt32) :
    (path.enter index).leave? = some path := rfl

theorem next?_enter_eq_some_iff {path next : ElementPath} {index : UInt32} :
    (path.enter index).next? = some next ↔ index ≠ maxIndex ∧ next = path.enter (index + 1) := by
  simp only [next?, enter]
  split <;> simp_all [eq_comm]

theorem leave?_eq_none_iff (path : ElementPath) : path.leave? = none ↔ path = empty := by
  obtain ⟨indices⟩ := path
  cases indices <;> simp [leave?, empty]

end ElementPath

end PageEngine
