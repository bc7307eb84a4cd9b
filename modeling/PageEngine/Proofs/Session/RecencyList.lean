import Mathlib.Data.List.Nodup
import PageEngine.Session.PageCache

/-! A store of bounded size as one list: its keys with their values, in the order of their last
use. Saving and retaining put a key at the end, and what makes room is the first key. -/

namespace PageEngine

/-- Keys with their values, the one used least recently first. No key stands twice, and there
are no more than the capacity, which is at least one. -/
structure RecencyList (capacity : Nat) (α : Type) where
  entries : List (String × α)
  nodup : (entries.map Prod.fst).Nodup
  length_le : entries.length ≤ max capacity 1

namespace RecencyList

variable {capacity : Nat} {α : Type}

def empty (capacity : Nat) (α : Type) : RecencyList capacity α :=
  ⟨[], .nil, Nat.zero_le _⟩

def keys (l : RecencyList capacity α) : List String := l.entries.map Prod.fst

/-- The value of a key. -/
def restore (l : RecencyList capacity α) (key : String) : Option α := l.entries.lookup key

theorem restore_eq_some_iff (l : RecencyList capacity α) {key : String} {v : α} :
    l.restore key = some v ↔ (key, v) ∈ l.entries := by
  rw [restore, List.lookup_eq_some_iff]
  constructor
  · rintro ⟨before, after, heq, -⟩
    simp [heq]
  · intro hmem
    obtain ⟨before, after, heq⟩ := List.append_of_mem hmem
    refine ⟨before, after, heq, fun e he => ?_⟩
    have hnodup := l.nodup
    rw [heq, List.map_append, List.map_cons] at hnodup
    have hdisjoint := (List.nodup_middle.1 hnodup).notMem
    rw [bne_iff_ne]
    rintro rfl
    exact hdisjoint (List.mem_append_left _ (List.mem_map.2 ⟨e, he, rfl⟩))

/-- Drop the key used least recently, if there is no room for another one. -/
def makeRoom (l : RecencyList capacity α) : List (String × α) :=
  if max capacity 1 ≤ l.entries.length then l.entries.tail else l.entries

theorem makeRoom_sublist (l : RecencyList capacity α) : l.makeRoom.Sublist l.entries := by
  unfold makeRoom
  split
  · exact List.tail_sublist _
  · exact .refl _

theorem length_makeRoom_lt (l : RecencyList capacity α) : l.makeRoom.length < max capacity 1 := by
  have hpos : 0 < max capacity 1 := Nat.lt_of_lt_of_le Nat.one_pos (Nat.le_max_right ..)
  have hlength := l.length_le
  unfold makeRoom
  split
  · rw [List.length_tail]
    omega
  · omega

/-- A new key with its value at the end of a list that has room for it. -/
def push (entries : List (String × α)) (hnodup : (entries.map Prod.fst).Nodup) (key : String)
    (v : α) (hnew : key ∉ entries.map Prod.fst) (hroom : entries.length < max capacity 1) :
    RecencyList capacity α where
  entries := entries ++ [(key, v)]
  nodup := by
    rw [List.map_append, List.nodup_append']
    refine ⟨hnodup, List.nodup_singleton _, fun other hother hkey => hnew ?_⟩
    rwa [List.mem_singleton.1 hkey] at hother
  length_le := by
    rw [List.length_append]
    exact hroom

/-- Save a value under a new key. A key that is there already changes nothing. -/
def save (l : RecencyList capacity α) (key : String) (v : α) :
    Except StateError Unit × RecencyList capacity α :=
  if h : key ∈ l.keys then (.error (.duplicateKey key), l)
  else (.ok (), push l.makeRoom (l.nodup.sublist (l.makeRoom_sublist.map _)) key v
    (fun hmem => h ((l.makeRoom_sublist.map _).subset hmem)) l.length_makeRoom_lt)

/-- The entries of the other keys. -/
def others (l : RecencyList capacity α) (key : String) : List (String × α) :=
  l.entries.filter fun e => e.1 ≠ key

theorem key_not_mem_others (l : RecencyList capacity α) (key : String) :
    key ∉ (l.others key).map Prod.fst := by
  simp [others]

theorem length_others_lt {l : RecencyList capacity α} {key : String} {v : α}
    (h : l.restore key = some v) : (l.others key).length < max capacity 1 := by
  have hmem := l.restore_eq_some_iff.1 h
  refine Nat.lt_of_lt_of_le (List.length_filter_lt_length_iff_exists.2 ⟨_, hmem, ?_⟩) l.length_le
  simp

/-- Mark a key as used last. A key that is not there changes nothing. -/
def retain (l : RecencyList capacity α) (key : String) :
    Except StateError Unit × RecencyList capacity α :=
  match h : l.restore key with
  | none => (.error (.missingKey key), l)
  | some v => (.ok (), push (l.others key) (l.nodup.sublist (List.filter_sublist.map _)) key v
    (l.key_not_mem_others key) (length_others_lt h))

end RecencyList

/-! ### Calls -/

inductive CacheCall (α : Type) where
  | save (key : String) (value : α)
  | retain (key : String)
  | restore (key : String)
  | contains (key : String)

inductive CacheReply (α : Type) where
  | done (result : Except StateError Unit)
  | value (found : Option α)
  | presence (found : Bool)

/-- The replies to calls made one after another, and the state after them. -/
def runCalls {α σ : Type} (call : σ → CacheCall α → CacheReply α × σ) (s : σ) :
    List (CacheCall α) → List (CacheReply α) × σ
  | [] => ([], s)
  | c :: rest =>
    let (replies, last) := runCalls call (call s c).2 rest
    ((call s c).1 :: replies, last)

def RecencyList.call {capacity : Nat} {α : Type} (l : RecencyList capacity α) :
    CacheCall α → CacheReply α × RecencyList capacity α
  | .save key v => (.done (l.save key v).1, (l.save key v).2)
  | .retain key => (.done (l.retain key).1, (l.retain key).2)
  | .restore key => (.value (l.restore key), l)
  | .contains key => (.presence (decide (key ∈ l.keys)), l)

def PageCache.call {α : Type} (c : PageCache α) : CacheCall α → CacheReply α × PageCache α
  | .save key v => (.done (c.save key v).1, (c.save key v).2)
  | .retain key => (.done (c.retain key).1, (c.retain key).2)
  | .restore key => (.value (c.restore key), c)
  | .contains key => (.presence (c.contains key), c)

end PageEngine
