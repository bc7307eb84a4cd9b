import PageEngine.Error

/-! A store of bounded size for pages that may be asked for again. Saving or retaining an
entry stamps it with a new tick; when the store is full, the entry with the lowest tick
makes room. Looking an entry up does not stamp it. -/

namespace PageEngine

structure PageCache (α : Type) where
  capacity : Nat
  /-- The entries by key, each with the tick of its last use. -/
  entries : Dictionary (Nat × α)
  /-- The keys by that tick, the lowest first. -/
  order : List (Nat × String)
  /-- The last tick given out. -/
  tick : Nat
  deriving Repr

namespace PageCache

variable {α : Type}

/-- An empty store; it holds at least one entry. -/
def ofCapacity (capacity : Nat) : PageCache α :=
  ⟨max capacity 1, [], [], 0⟩

def size (c : PageCache α) : Nat := c.entries.length

def isEmpty (c : PageCache α) : Bool := c.entries.isEmpty

def contains (c : PageCache α) (key : String) : Bool :=
  Dictionary.contains key c.entries

/-- The value saved under a key. -/
def restore (c : PageCache α) (key : String) : Option α :=
  (Dictionary.get? key c.entries).map Prod.snd

/-- Drop the entry with the lowest tick. -/
def evict (c : PageCache α) : PageCache α :=
  match c.order with
  | [] => c
  | (_, key) :: order => { c with order, entries := Dictionary.erase key c.entries }

/-- Stamp an entry with the next tick; it is then the last in order. -/
def stamp (c : PageCache α) (key : String) (v : α) : PageCache α :=
  { c with
    tick := c.tick + 1
    entries := Dictionary.insert key (c.tick + 1, v) c.entries
    order := c.order ++ [(c.tick + 1, key)] }

/-- Save a value under a new key. A key that is there already is not replaced. -/
def save (c : PageCache α) (key : String) (v : α) : Except StateError Unit × PageCache α :=
  if c.contains key then (.error (.duplicateKey key), c)
  else
    let c := if c.capacity ≤ c.size then c.evict else c
    (.ok (), c.stamp key v)

/-- Mark an entry as used last. The tick is spent even if there is no such entry. -/
def retain (c : PageCache α) (key : String) : Except StateError Unit × PageCache α :=
  match Dictionary.get? key c.entries with
  | none => (.error (.missingKey key), { c with tick := c.tick + 1 })
  | some (last, v) =>
    (.ok (), { c with order := c.order.filter fun (t, _) => t ≠ last }.stamp key v)

@[simp] theorem restore_stamp_self (c : PageCache α) (key : String) (v : α) :
    (c.stamp key v).restore key = some v := by
  simp [restore, stamp]

/-- What was saved is found. -/
theorem restore_of_save {c : PageCache α} {key : String} (h : c.contains key = false) (v : α) :
    (c.save key v).2.restore key = some v := by
  simp [save, h]

/-- A second value under one key is refused, and the first stays. -/
theorem save_of_contains {c : PageCache α} {key : String} (h : c.contains key = true) (v : α) :
    c.save key v = (.error (.duplicateKey key), c) := by
  simp [save, h]

end PageCache

end PageEngine
