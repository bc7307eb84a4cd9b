import PageEngine.Proofs.Walk.Synchronized

/-! The rounds of a repetition. Its list is read once, before the first round, and the content may
change what it likes: every round begins with its own index and its own item, on its own index of
the branch. A round with an answer is the last one. -/

namespace PageEngine

open Walk

/-- Before a round its index and its item are written. -/
def WalkState.begun (item index : String) (i : Nat) (v : Value) (s : WalkState) : WalkState :=
  s.wrote [(.keyPath index, .ofNat i), (.keyPath item, v)]

/-- Visits to a content from the index `i` on, one for every value up to a first answer. Each
visit is kept with the state in which it begins and the one in which it ends. -/
inductive Rounds (inner : Walk (Option Answer)) (item index : String) :
    Nat → List Value → WalkState → Option Answer → List (WalkState × WalkState) → WalkState → Prop
  | done (i : Nat) (s : WalkState) : Rounds inner item index i [] s none [] s
  | stop {i : Nat} {v : Value} {rest : List Value} {s stop : WalkState} {a : Answer}
    (h : inner.runFrom (s.begun item index i v) = (.ok (some a), stop)) :
    Rounds inner item index i (v :: rest) s (some a) [(s.begun item index i v, stop)] stop
  | next {i : Nat} {v : Value} {rest : List Value} {s stop last : WalkState}
    {answer : Option Answer} {visits : List (WalkState × WalkState)} {path : ElementPath}
    (h : inner.runFrom (s.begun item index i v) = (.ok none, stop))
    (hnext : stop.path.next? = some path)
    (hrest : Rounds inner item index (i + 1) rest { stop with path } answer visits last) :
    Rounds inner item index i (v :: rest) s answer ((s.begun item index i v, stop) :: visits) last

variable {task : Task} {inner : Walk (Option Answer)} {content : Option Element}
  {item index : String} {i : Nat} {v : Value} {items : List Value} {s last : WalkState}
  {answer : Option Answer} {visits : List (WalkState × WalkState)}

/-! ### The beginning of a round -/

namespace WalkState

theorem values_begun : (s.begun item index i v).scope.current.values =
    (s.scope.current.values.write index (.ofNat i)).write item v := by
  simp only [begun, wrote, List.foldl_cons, List.foldl_nil, Scope.written_keyPath,
    Scope.current_modifyCurrent]
  rfl

/-- A value written at a key path is read there. -/
theorem read_wrote {path : String} :
    (s.wrote [(.keyPath path, v)]).scope.current.values.read path = v := by
  simp only [wrote, List.foldl_cons, List.foldl_nil, Scope.written_keyPath,
    Scope.current_modifyCurrent]
  exact Entries.read_write ..

theorem keeps_begun : s.Keeps (s.begun item index i v) := by
  have hindex := s.scope.alike_written (.keyPath index) s.scope.depth (.ofNat i)
  exact .of_alike (hindex.trans (Scope.alike_written ..)) rfl

theorem path_begun : (s.begun item index i v).path = s.path :=
  path_wrote s _

/-- The item is what was written last. -/
theorem read_item_begun : (s.begun item index i v).scope.current.values.read item = v :=
  read_wrote (s := s.wrote [(.keyPath index, .ofNat i)])

/-- The item is written apart from the index, which has just been put behind objects. -/
theorem read_index_begun (hapart : KeyPath.Apart item index) :
    (s.begun item index i v).scope.current.values.read index = .ofNat i := by
  have hkept := Value.keeps_place (.object s.scope.current.values) (.ofNat i)
    (KeyPath.ofString index).segments
  rw [values_begun]
  exact Entries.Keeps.read (hkept.place_of_not_overlap hapart) (List.append_nil _).symm

end WalkState

/-! ### From the run to the rounds -/

namespace Rounds

/-- Every visit is a run of the content, and only the last one has an answer. -/
theorem run (h : Rounds inner item index i items s answer visits last) {j : Nat}
    {start stop : WalkState} (hvisit : visits[j]? = some (start, stop)) :
    inner.runFrom start = (.ok (if j + 1 = visits.length then answer else none), stop) := by
  induction h generalizing j with
  | done i s => cases hvisit
  | stop h =>
    cases j with
    | zero =>
      cases hvisit
      exact h
    | succ j => cases hvisit
  | @next i v rest s stop last answer visits path h hnext hrest ih =>
    cases j with
    | zero =>
      cases hvisit
      cases hrest with
      | done => exact h
      | _ => exact h
    | succ j => simpa using ih hvisit

/-- A round begins on its own index of the branch, in the same components as the first one, with
its own index and item. -/
theorem start (h : Rounds inner item index i items s answer visits last)
    (hinner : Makes task (.content content) inner) (hapart : KeyPath.Apart item index)
    {path : ElementPath} {branch : UInt32} (hbranch : branch.toNat = i)
    (hpath : s.path = path.enter branch) {j : Nat} {start stop : WalkState}
    (hvisit : visits[j]? = some (start, stop)) :
    (∃ branch : UInt32, branch.toNat = i + j ∧ start.path = path.enter branch) ∧
      start.scope.keys = s.scope.keys ∧
      items[j]? = some (start.scope.current.values.read item) ∧
      start.scope.current.values.read index = .ofNat (i + j) := by
  have hfirst : ∀ {i : Nat} {s : WalkState} {v : Value} {rest : List Value} {branch : UInt32},
      branch.toNat = i → s.path = path.enter branch →
        (∃ branch : UInt32, branch.toNat = i + 0 ∧
          (s.begun item index i v).path = path.enter branch) ∧
        (s.begun item index i v).scope.keys = s.scope.keys ∧
        (v :: rest)[0]? = some ((s.begun item index i v).scope.current.values.read item) ∧
        (s.begun item index i v).scope.current.values.read index = .ofNat (i + 0) :=
    fun hbranch hpath => ⟨⟨_, hbranch, WalkState.path_begun.trans hpath⟩,
      WalkState.keeps_begun.keys, congrArg some WalkState.read_item_begun.symm,
      WalkState.read_index_begun hapart⟩
  induction h generalizing j branch with
  | done i s => cases hvisit
  | stop h =>
    cases j with
    | zero =>
      cases hvisit
      exact hfirst hbranch hpath
    | succ j => cases hvisit
  | @next i v rest s stop last answer visits path' h hnext hrest ih =>
    cases j with
    | zero =>
      cases hvisit
      exact hfirst hbranch hpath
    | succ j =>
      have hturn := hinner _ _ _ h
      have hback : stop.path = path.enter branch :=
        (hturn.returns none rfl).trans (WalkState.path_begun.trans hpath)
      have hkeys : stop.scope.keys = s.scope.keys :=
        hturn.keeps.keys.trans WalkState.keeps_begun.keys
      rw [hback] at hnext
      obtain ⟨hlast, hpath'⟩ := ElementPath.next?_enter_eq_some_iff.1 hnext
      have hbranch' : (branch + 1).toNat = i + 1 := by rw [ElementPath.toNat_next hlast, hbranch]
      obtain ⟨hstart, hsame, hitem, hindex⟩ := ih hbranch' hpath' hvisit
      rw [Nat.add_right_comm] at hstart hindex
      exact ⟨hstart, hsame.trans hkeys, hitem, hindex⟩

/-- Without an answer there is one visit for every value. -/
theorem length_eq (h : Rounds inner item index i items s none visits last) :
    visits.length = items.length := by
  generalize hanswer : none = answer at h
  induction h with
  | done => rfl
  | stop => cases hanswer
  | next h hnext hrest ih => exact congrArg Nat.succ (ih hanswer)

end Rounds

/-- A repetition over a list, with key paths for the item and the index. -/
def Element.repetition (site : Site) (list : Association) (item index : String)
    (content : Option Element) : Element :=
  .tag site (.repetition (.list list) (some (.keyPath item)) (some (.keyPath index))) content

namespace Numbered

/-- A text field that writes the list which it stands in a repetition of. -/
def field : Element := .tag default (.textField ⟨.keyPath "list", none, none, []⟩) none

/-- A page with two items. -/
def page : WalkState :=
  .ofPage .empty ⟨0⟩ (Instance.ofClass "Page"
    (.plain [("list", .list [.text "a", .text "b"])]) default)

def take : Task :=
  ⟨⟨.standard, [], .memory []⟩, (Request.ofPath "GET" "").addFormValue "0" "c", none, .takeValues⟩

def taken : Except EngineError (Option Answer) × WalkState :=
  ((Element.repetition default (.keyPath "list") "item" "index" (some field)).visit take
    (Element.visitWithin take nestingLimit)).runFrom page

end Numbered

end PageEngine
