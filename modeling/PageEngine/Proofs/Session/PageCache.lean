import PageEngine.Proofs.Dictionary
import PageEngine.Proofs.Session.RecencyList

/-! The bounded store is a recency list. Its table and its order hold the same slots, and the
ticks of the slots put the keys in the order of their last use. Every call acts on the slots as
it acts on the list, so that all replies agree. -/

namespace PageEngine

/-- An entry of the store with its tick. -/
structure Slot (α : Type) where
  tick : Nat
  key : String
  value : α

namespace PageCache

variable {α : Type} {c : PageCache α} {slots : List (Slot α)}

/-- The table and the order of a store hold the same slots, in ascending order of their ticks. -/
structure Laid (c : PageCache α) (slots : List (Slot α)) : Prop where
  order : c.order = slots.map fun s => (s.tick, s.key)
  entries : c.entries.Perm (slots.map fun s => (s.key, s.tick, s.value))
  ordered : Dictionary.Ordered c.entries
  ascending : slots.Pairwise fun s t => s.tick < t.tick
  le_tick : ∀ s ∈ slots, s.tick ≤ c.tick

/-- What the parts of a store have to do with one another: the order lists each entry once, by
the tick of its last use, and no tick is greater than the counter. -/
structure Consistent (c : PageCache α) : Prop where
  ordered : Dictionary.Ordered c.entries
  ascending : c.order.Pairwise fun a b => a.1 < b.1
  mem_order : ∀ tick key, (tick, key) ∈ c.order ↔
    ∃ v, Dictionary.get? key c.entries = some (tick, v)
  size : c.order.length = c.size
  le_tick : ∀ e ∈ c.order, e.1 ≤ c.tick

namespace Laid

theorem nodup_keys (h : c.Laid slots) : (slots.map Slot.key).Nodup := by
  have hkeys := (h.entries.map Prod.fst).nodup_iff.1 (Dictionary.nodup_keys h.ordered)
  rwa [List.map_map] at hkeys

theorem get?_eq_some_iff (h : c.Laid slots) {key : String} {tick : Nat} {v : α} :
    Dictionary.get? key c.entries = some (tick, v) ↔ ⟨tick, key, v⟩ ∈ slots := by
  rw [Dictionary.get?_eq_some_iff h.ordered, h.entries.mem_iff, List.mem_map]
  constructor
  · rintro ⟨⟨tick', key', v'⟩, hmem, heq⟩
    cases heq
    exact hmem
  · exact fun hmem => ⟨_, hmem, rfl⟩

theorem size_eq (h : c.Laid slots) : c.size = slots.length := by
  rw [size, h.entries.length_eq, List.length_map]

theorem contains_iff (h : c.Laid slots) {key : String} :
    c.contains key = true ↔ key ∈ slots.map Slot.key := by
  rw [contains, Dictionary.contains, Option.isSome_iff_exists, List.mem_map]
  constructor
  · rintro ⟨⟨tick, v⟩, hget⟩
    exact ⟨_, h.get?_eq_some_iff.1 hget, rfl⟩
  · rintro ⟨s, hs, rfl⟩
    exact ⟨_, h.get?_eq_some_iff.2 hs⟩

/-- Two slots have one tick exactly if they have one key. -/
theorem tick_eq_iff (h : c.Laid slots) {s t : Slot α} (hs : s ∈ slots) (ht : t ∈ slots) :
    s.tick = t.tick ↔ s.key = t.key := by
  have hticks : (slots.map Slot.tick).Nodup :=
    List.pairwise_map.2 (h.ascending.imp Nat.ne_of_lt)
  constructor
  · intro heq
    rw [List.inj_on_of_nodup_map hticks hs ht heq]
  · intro heq
    rw [List.inj_on_of_nodup_map h.nodup_keys hs ht heq]

theorem consistent (h : c.Laid slots) : c.Consistent where
  ordered := h.ordered
  ascending := by
    rw [h.order, List.pairwise_map]
    exact h.ascending
  mem_order tick key := by
    simp only [h.get?_eq_some_iff, h.order, List.mem_map]
    constructor
    · rintro ⟨⟨tick', key', v⟩, hmem, heq⟩
      cases heq
      exact ⟨v, hmem⟩
    · rintro ⟨v, hmem⟩
      exact ⟨_, hmem, rfl⟩
  size := by rw [h.order, List.length_map, h.size_eq]
  le_tick e he := by
    rw [h.order] at he
    obtain ⟨s, hs, rfl⟩ := List.mem_map.1 he
    exact h.le_tick s hs

theorem empty (capacity : Nat) : (ofCapacity capacity : PageCache α).Laid [] :=
  ⟨rfl, .refl _, .nil, .nil, by simp⟩

/-- The slots of the other keys are left when a key is erased. -/
theorem entries_erase (h : c.Laid slots) (key : String) :
    (Dictionary.erase key c.entries).Perm
      ((slots.filter fun s => s.key ≠ key).map fun s => (s.key, s.tick, s.value)) := by
  rw [Dictionary.erase_eq_filter h.ordered]
  refine (h.entries.filter _).trans ?_
  rw [List.filter_map]
  exact .refl _

/-- The slot with the lowest tick makes room. -/
theorem evict (h : c.Laid slots) : c.evict.Laid slots.tail := by
  unfold PageCache.evict
  rw [h.order]
  cases slots with
  | nil => exact h
  | cons s rest =>
    obtain ⟨-, hrest⟩ := List.pairwise_cons.1 h.ascending
    have hothers : (s :: rest).filter (fun t => t.key ≠ s.key) = rest := by
      rw [List.filter_cons_of_neg (by simp), List.filter_eq_self]
      intro t ht
      have hkey := (List.nodup_cons.1 h.nodup_keys).1
      exact decide_eq_true fun heq => hkey (heq ▸ List.mem_map_of_mem ht)
    have hentries := h.entries_erase s.key
    rw [hothers] at hentries
    exact ⟨rfl, hentries, h.ordered.erase _, hrest,
      fun t ht => h.le_tick t (List.mem_cons_of_mem _ ht)⟩

end Laid

/-- A stamped entry is the last slot, after those of the other keys. -/
theorem laid_stamp {key : String} {others : List (Slot α)}
    (horder : c.order = others.map fun s => (s.tick, s.key))
    (hentries : (Dictionary.erase key c.entries).Perm
      (others.map fun s => (s.key, s.tick, s.value)))
    (hordered : Dictionary.Ordered c.entries)
    (hascending : others.Pairwise fun s t => s.tick < t.tick)
    (hle : ∀ s ∈ others, s.tick ≤ c.tick) (v : α) :
    (c.stamp key v).Laid (others ++ [⟨c.tick + 1, key, v⟩]) where
  order := by rw [List.map_append, ← horder]; rfl
  entries := by
    have hinsert := (Dictionary.perm_insert hordered key (c.tick + 1, v)).trans (hentries.cons _)
    rw [List.map_append]
    exact hinsert.trans (List.perm_append_singleton ..).symm
  ordered := hordered.insert _ _
  ascending := by
    refine List.pairwise_append.2 ⟨hascending, List.pairwise_singleton .., fun s hs t ht => ?_⟩
    obtain rfl := List.mem_singleton.1 ht
    exact Nat.lt_succ_of_le (hle s hs)
  le_tick s hs := by
    rcases List.mem_append.1 hs with hs | hs
    · exact Nat.le_succ_of_le (hle s hs)
    · obtain rfl := List.mem_singleton.1 hs
      exact Nat.le_refl _

namespace Laid

variable {key : String}

theorem save (h : c.Laid slots) (hnew : key ∉ slots.map Slot.key) (v : α) :
    c.save key v = (.ok (), (c.save key v).2) ∧
      (c.save key v).2.Laid ((if c.capacity ≤ c.size then slots.tail else slots) ++
        [⟨c.tick + 1, key, v⟩]) := by
  have habsent : c.contains key = false := by
    rw [← Bool.not_eq_true, h.contains_iff]
    exact hnew
  have hroom : ∀ {d : PageCache α} {others : List (Slot α)}, d.Laid others → d.tick = c.tick →
      others.Sublist slots → (d.stamp key v).Laid (others ++ [⟨c.tick + 1, key, v⟩]) := by
    intro d others hd htick hsub
    have hkey : key ∉ others.map Slot.key := fun hmem => hnew ((hsub.map _).subset hmem)
    have hget : Dictionary.get? key d.entries = none := by
      have hcontains := hd.contains_iff.not.2 hkey
      simpa [contains, Dictionary.contains] using hcontains
    rw [← htick]
    refine laid_stamp hd.order ?_ hd.ordered hd.ascending hd.le_tick v
    rw [Dictionary.erase_of_get?_eq_none hget]
    exact hd.entries
  have htick : c.evict.tick = c.tick := by
    unfold PageCache.evict
    split <;> rfl
  rw [PageCache.save, if_neg (by simp [habsent])]
  refine ⟨rfl, ?_⟩
  dsimp only
  split
  · exact hroom h.evict htick (List.tail_sublist _)
  · exact hroom h rfl (.refl _)

theorem retain (h : c.Laid slots) {s : Slot α} (hs : s ∈ slots) :
    c.retain s.key = (.ok (), (c.retain s.key).2) ∧
      (c.retain s.key).2.Laid ((slots.filter fun t => t.key ≠ s.key) ++
        [⟨c.tick + 1, s.key, s.value⟩]) := by
  have hget : Dictionary.get? s.key c.entries = some (s.tick, s.value) := h.get?_eq_some_iff.2 hs
  have horder : (c.order.filter fun entry => entry.1 ≠ s.tick) =
      (slots.filter fun t => t.key ≠ s.key).map fun t => (t.tick, t.key) := by
    rw [h.order, List.filter_map]
    congr 1
    refine List.filter_congr fun t ht => ?_
    simp [h.tick_eq_iff ht hs]
  rw [PageCache.retain, hget]
  exact ⟨rfl, laid_stamp (c := { c with order := c.order.filter fun entry => entry.1 ≠ s.tick }) horder
    (h.entries_erase s.key) h.ordered (h.ascending.filter _)
    (fun t ht => h.le_tick t (List.mem_filter.1 ht).1) s.value⟩

end Laid

/-! ### The list of a store -/

/-- A store keeps the entries of a recency list, in that order. -/
structure Keeps {capacity : Nat} (c : PageCache α) (l : RecencyList capacity α) : Prop where
  capacity : c.capacity = max capacity 1
  laid : ∃ slots, c.Laid slots ∧ l.entries = slots.map fun s => (s.key, s.value)

namespace Keeps

variable {capacity : Nat} {l : RecencyList capacity α}

theorem empty (capacity : Nat) : (ofCapacity capacity : PageCache α).Keeps
    (RecencyList.empty capacity α) :=
  ⟨rfl, [], .empty capacity, rfl⟩

theorem consistent (h : c.Keeps l) : c.Consistent := by
  obtain ⟨slots, hlaid, -⟩ := h.laid
  exact hlaid.consistent

theorem size_eq (h : c.Keeps l) : c.size = l.entries.length := by
  obtain ⟨slots, hlaid, hentries⟩ := h.laid
  rw [hlaid.size_eq, hentries, List.length_map]

theorem restore_eq (h : c.Keeps l) (key : String) : c.restore key = l.restore key := by
  obtain ⟨slots, hlaid, hentries⟩ := h.laid
  refine Option.ext fun v => ?_
  rw [l.restore_eq_some_iff, hentries, List.mem_map, restore, Option.map_eq_some_iff]
  constructor
  · rintro ⟨⟨tick, w⟩, hget, rfl⟩
    exact ⟨_, hlaid.get?_eq_some_iff.1 hget, rfl⟩
  · rintro ⟨s, hs, heq⟩
    cases heq
    exact ⟨_, hlaid.get?_eq_some_iff.2 hs, rfl⟩

theorem contains_iff (h : c.Keeps l) {key : String} : c.contains key = true ↔ key ∈ l.keys := by
  obtain ⟨slots, hlaid, hentries⟩ := h.laid
  rw [hlaid.contains_iff, RecencyList.keys, hentries, List.map_map]
  rfl

theorem save (h : c.Keeps l) (key : String) (v : α) :
    (c.save key v).1 = (l.save key v).1 ∧ (c.save key v).2.Keeps (l.save key v).2 := by
  by_cases hkey : key ∈ l.keys
  · rw [RecencyList.save, dif_pos hkey, save_of_contains (h.contains_iff.2 hkey)]
    exact ⟨rfl, h⟩
  obtain ⟨slots, hlaid, hentries⟩ := h.laid
  have hnew : key ∉ slots.map Slot.key := fun hmem =>
    hkey (h.contains_iff.1 (hlaid.contains_iff.2 hmem))
  obtain ⟨hok, hsaved⟩ := hlaid.save hnew v
  rw [RecencyList.save, dif_neg hkey]
  refine ⟨congrArg Prod.fst hok, ?_, _, hsaved, ?_⟩
  · rw [PageCache.save, if_neg (mt h.contains_iff.1 hkey)]
    dsimp only
    split
    · unfold evict
      split <;> exact h.capacity
    · exact h.capacity
  · have hroom : l.makeRoom =
        (if c.capacity ≤ c.size then slots.tail else slots).map fun s => (s.key, s.value) := by
      rw [RecencyList.makeRoom, h.capacity, h.size_eq]
      split
      · rw [hentries, List.map_tail]
      · exact hentries
    rw [List.map_append, ← hroom]
    rfl

theorem retain (h : c.Keeps l) (key : String) :
    (c.retain key).1 = (l.retain key).1 ∧ (c.retain key).2.Keeps (l.retain key).2 := by
  obtain ⟨slots, hlaid, hentries⟩ := h.laid
  have hrestore := h.restore_eq key
  unfold RecencyList.retain
  split
  · rename_i hnone
    rw [hnone, restore, Option.map_eq_none_iff] at hrestore
    rw [PageCache.retain, hrestore]
    exact ⟨rfl, h.capacity, slots, { hlaid with
      le_tick := fun s hs => Nat.le_succ_of_le (hlaid.le_tick s hs) }, hentries⟩
  · rename_i v hsome
    have hmem := l.restore_eq_some_iff.1 hsome
    rw [hentries, List.mem_map] at hmem
    obtain ⟨s, hs, heq⟩ := hmem
    cases heq
    obtain ⟨hok, hretained⟩ := hlaid.retain hs
    refine ⟨congrArg Prod.fst hok, ?_, _, hretained, ?_⟩
    · have hget := hlaid.get?_eq_some_iff.2 hs
      rw [PageCache.retain, hget]
      exact h.capacity
    · have hothers : l.others s.key =
          (slots.filter fun t => t.key ≠ s.key).map fun t => (t.key, t.value) := by
        rw [RecencyList.others, hentries, List.filter_map]
        rfl
      rw [List.map_append, ← hothers]
      rfl

/-- A call has the same reply from a store and from its list, and keeps them together. -/
theorem call (h : c.Keeps l) (request : CacheCall α) :
    (c.call request).1 = (l.call request).1 ∧ (c.call request).2.Keeps (l.call request).2 := by
  cases request with
  | save key v =>
    obtain ⟨hreply, hkeeps⟩ := h.save key v
    exact ⟨congrArg CacheReply.done hreply, hkeeps⟩
  | retain key =>
    obtain ⟨hreply, hkeeps⟩ := h.retain key
    exact ⟨congrArg CacheReply.done hreply, hkeeps⟩
  | restore key => exact ⟨congrArg CacheReply.value (h.restore_eq key), h⟩
  | contains key =>
    refine ⟨congrArg CacheReply.presence ?_, h⟩
    rw [Bool.eq_iff_iff, h.contains_iff, decide_eq_true_iff]

theorem run (h : c.Keeps l) (calls : List (CacheCall α)) :
    (runCalls PageCache.call c calls).1 = (runCalls RecencyList.call l calls).1 ∧
      (runCalls PageCache.call c calls).2.Keeps (runCalls RecencyList.call l calls).2 := by
  induction calls generalizing c l with
  | nil => exact ⟨rfl, h⟩
  | cons first rest ih =>
    obtain ⟨hreply, hkeeps⟩ := h.call first
    obtain ⟨hreplies, hlast⟩ := ih hkeeps
    exact ⟨congrArg₂ List.cons hreply hreplies, hlast⟩

end Keeps

/-- A call counts one tick at most. -/
theorem tick_call_le (c : PageCache α) (request : CacheCall α) :
    (c.call request).2.tick ≤ c.tick + 1 := by
  cases request with
  | save key v =>
    rw [call, save]
    split
    · exact Nat.le_succ _
    · dsimp only
      split
      · unfold evict
        split <;> exact Nat.le_refl _
      · exact Nat.le_refl _
  | retain key =>
    rw [call, retain]
    split <;> exact Nat.le_refl _
  | restore key => exact Nat.le_succ _
  | contains key => exact Nat.le_succ _

theorem tick_run_le (c : PageCache α) (calls : List (CacheCall α)) :
    (runCalls call c calls).2.tick ≤ c.tick + calls.length := by
  induction calls generalizing c with
  | nil => exact Nat.le_refl _
  | cons first rest ih =>
    have hfirst := c.tick_call_le first
    have hrest := ih (c.call first).2
    rw [runCalls, List.length_cons]
    dsimp only
    omega

/-- From a new store on, all replies are those of a recency list of the same capacity, and so is
the size. Table and order of the store stay consistent, and the counter has not gone further
than the number of calls. -/
theorem runCalls_eq_recencyList (capacity : Nat) (calls : List (CacheCall α)) :
    (runCalls call (ofCapacity capacity) calls).1 =
      (runCalls RecencyList.call (.empty capacity α) calls).1 ∧
    (runCalls call (ofCapacity capacity) calls).2.size =
      (runCalls RecencyList.call (.empty capacity α) calls).2.entries.length ∧
    (runCalls call (ofCapacity capacity : PageCache α) calls).2.Consistent ∧
    (runCalls call (ofCapacity capacity : PageCache α) calls).2.tick ≤ calls.length := by
  obtain ⟨hreplies, hkeeps⟩ := (Keeps.empty capacity).run calls
  refine ⟨hreplies, hkeeps.size_eq, hkeeps.consistent, ?_⟩
  have htick := (ofCapacity capacity : PageCache α).tick_run_le calls
  rwa [show (ofCapacity capacity : PageCache α).tick = 0 from rfl, Nat.zero_add] at htick

end PageCache

end PageEngine
