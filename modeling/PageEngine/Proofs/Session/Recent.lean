import PageEngine.Proofs.Session.PageCache
import PageEngine.Session.Basic

/-! The context ids of a session. A rendering takes an id for the addresses that it prints. The
page is saved under it, and whenever a request finds the page, the id is used again; the id of a
rendering that fails is lost. A store of pages that was saved to and retained from in this way
keeps the ids used last, as many as there is room for. -/

namespace PageEngine

/-- A use of a context id: a page was saved under it or found again, or a rendering that took it
has failed. -/
inductive ContextUse where
  | saved (context : String) (page : PageId)
  | found (context : String)
  | lost (context : String)

namespace ContextUse

def context : ContextUse → String
  | .saved context _ => context
  | .found context => context
  | .lost context => context

/-- The ids that pages were saved or found under, the latest first, each of them once. -/
def latest : List ContextUse → List String
  | [] => []
  | .saved context _ :: log => context :: (latest log).filter (· ≠ context)
  | .found context :: log => context :: (latest log).filter (· ≠ context)
  | .lost _ :: log => latest log

theorem exists_of_mem_latest {log : List ContextUse} {c : String} (h : c ∈ latest log) :
    ∃ use ∈ log, use.context = c := by
  have hlater : ∀ {use : ContextUse} {log : List ContextUse}, (∃ use ∈ log, use.context = c) →
      ∃ other ∈ use :: log, other.context = c := by
    rintro use log ⟨other, hother, hcontext⟩
    exact ⟨other, List.mem_cons_of_mem _ hother, hcontext⟩
  have hcons : ∀ {use : ContextUse} {log : List ContextUse},
      c ∈ use.context :: (latest log).filter (· ≠ use.context) →
      (c ∈ latest log → ∃ use ∈ log, use.context = c) →
      ∃ other ∈ use :: log, other.context = c := by
    intro use log hmem ih
    rcases List.mem_cons.1 hmem with rfl | hmem
    · exact ⟨use, List.mem_cons_self .., rfl⟩
    · exact hlater (ih (List.mem_filter.1 hmem).1)
  induction log with
  | nil => cases h
  | cons use log ih =>
    cases use with
    | saved context page => exact hcons h ih
    | found context => exact hcons h ih
    | lost context => exact hlater (ih h)

theorem nodup_latest (log : List ContextUse) : (latest log).Nodup := by
  have hcons : ∀ {l : List String} {c : String}, l.Nodup → (c :: l.filter (· ≠ c)).Nodup := by
    intro l c hl
    refine List.nodup_cons.2 ⟨fun hmem => ?_, hl.filter _⟩
    simpa using (List.mem_filter.1 hmem).2
  induction log with
  | nil => exact .nil
  | cons use log ih =>
    cases use with
    | saved context page => exact hcons ih
    | found context => exact hcons ih
    | lost context => exact ih

end ContextUse

/-- Taking an element out of the first ones makes room for one more. -/
theorem filter_take_of_mem {l : List String} {c : String} {n : Nat} (hnodup : l.Nodup)
    (hc : c ∈ l.take n) :
    (l.take n).filter (· ≠ c) = (l.filter (· ≠ c)).take (n - 1) := by
  induction l generalizing n with
  | nil => cases List.take_nil ▸ hc
  | cons a l ih =>
    obtain ⟨ha, hl⟩ := List.nodup_cons.1 hnodup
    cases n with
    | zero => cases hc
    | succ n =>
      rw [List.take_succ_cons] at hc ⊢
      rw [Nat.add_sub_cancel]
      by_cases hac : a = c
      · have hothers : ∀ {l' : List String}, l'.Sublist l → l'.filter (· ≠ c) = l' := by
          intro l' hsub
          refine List.filter_eq_self.2 fun d hd => decide_eq_true ?_
          rintro rfl
          exact ha (hac ▸ hsub.subset hd)
        rw [List.filter_cons_of_neg (by simpa using hac), List.filter_cons_of_neg (by simpa using hac),
          hothers (List.take_sublist ..), hothers (.refl l)]
      · have hmem : c ∈ l.take n := (List.mem_cons.1 hc).resolve_left (Ne.symm hac)
        have hpos : 0 < n := by
          cases n with
          | zero => cases hmem
          | succ n => exact Nat.succ_pos n
        rw [List.filter_cons_of_pos (by simpa using hac), List.filter_cons_of_pos (by simpa using hac),
          ih hl hmem, ← Nat.sub_add_cancel hpos, List.take_succ_cons, Nat.add_sub_cancel]

namespace RecencyList

variable {capacity : Nat} {α : Type} {l : RecencyList capacity α} {key : String}

/-- The keys, the one used last first. -/
def recent (l : RecencyList capacity α) : List String := l.keys.reverse

theorem recent_save (h : key ∉ l.keys) (v : α) :
    (l.save key v).1 = .ok () ∧
      (l.save key v).2.recent = key :: l.recent.take (max capacity 1 - 1) := by
  have hroom : (l.makeRoom.map Prod.fst).reverse = l.recent.take (max capacity 1 - 1) := by
    have hlength : l.recent.length = l.entries.length := by simp [recent, keys]
    have hle := l.length_le
    unfold makeRoom
    split
    · rename_i hfull
      have hentries : l.entries.length = max capacity 1 := Nat.le_antisymm hle hfull
      rw [List.map_tail, ← List.dropLast_reverse, List.dropLast_eq_take]
      rw [← hentries, ← hlength]
      rfl
    · rw [List.take_of_length_le (by omega)]
      rfl
  rw [save, dif_neg h]
  refine ⟨rfl, ?_⟩
  rw [recent, keys, push, List.map_append, List.reverse_append, hroom]
  rfl

theorem recent_retain {v : α} (h : l.restore key = some v) :
    (l.retain key).1 = .ok () ∧
      (l.retain key).2.entries = l.others key ++ [(key, v)] ∧
      (l.retain key).2.recent = key :: l.recent.filter (· ≠ key) := by
  unfold retain
  split
  · rename_i hnone
    rw [h] at hnone
    cases hnone
  · rename_i w hsome
    obtain rfl : v = w := Option.some.inj (h.symm.trans hsome)
    refine ⟨rfl, rfl, ?_⟩
    have hkeys : (l.others key).map Prod.fst = l.keys.filter (· ≠ key) := by
      rw [others, keys, List.filter_map]
      rfl
    rw [recent, keys, push, List.map_append, List.reverse_append, hkeys, recent,
      List.filter_reverse]
    rfl

end RecencyList

/-- A store of pages keeps the ids used last, with the pages that were saved under them. -/
def PageCache.Remembers (size : Nat) (log : List ContextUse) (c : PageCache PageId) : Prop :=
  ∃ l : RecencyList size PageId, c.Keeps l ∧
    l.recent = (ContextUse.latest log).take (max size 1) ∧
    ∀ id page, (id, page) ∈ l.entries → ContextUse.saved id page ∈ log

namespace PageCache.Remembers

variable {size : Nat} {log : List ContextUse} {c : PageCache PageId} {id : String} {page : PageId}

theorem new (size : Nat) : Remembers size [] (.ofCapacity size) :=
  ⟨_, .empty size, by simp [RecencyList.recent, RecencyList.keys, RecencyList.empty,
    ContextUse.latest], by simp [RecencyList.empty]⟩

/-- A page is found under the ids used last, and under no other ones. -/
theorem restore_iff (h : c.Remembers size log) :
    (c.restore id).isSome = true ↔ id ∈ (ContextUse.latest log).take (max size 1) := by
  obtain ⟨l, hkeeps, hrecent, -⟩ := h
  rw [← hrecent, RecencyList.recent, List.mem_reverse, ← hkeeps.contains_iff, contains, restore,
    Option.isSome_map, Dictionary.contains]

theorem saved (h : c.Remembers size log) (hpage : c.restore id = some page) :
    ContextUse.saved id page ∈ log := by
  obtain ⟨l, hkeeps, -, hentries⟩ := h
  rw [hkeeps.restore_eq, l.restore_eq_some_iff] at hpage
  exact hentries _ _ hpage

theorem save (h : c.Remembers size log) (hnew : ∀ use ∈ log, use.context ≠ id) (page : PageId) :
    (c.save id page).1 = .ok () ∧
      (c.save id page).2.Remembers size (.saved id page :: log) ∧
      (c.save id page).2.restore id = some page := by
  have hlatest : id ∉ ContextUse.latest log := fun hmem => by
    obtain ⟨use, huse, hcontext⟩ := ContextUse.exists_of_mem_latest hmem
    exact hnew use huse hcontext
  have hcontains : c.contains id = false := by
    refine Bool.eq_false_iff.2 fun hmem => hlatest (List.mem_of_mem_take (h.restore_iff.1 ?_))
    rwa [PageCache.restore, Option.isSome_map, ← Dictionary.contains, ← PageCache.contains]
  obtain ⟨l, hkeeps, hrecent, hentries⟩ := h
  have hkeys : id ∉ l.keys := fun hmem => by
    rw [hkeeps.contains_iff.2 hmem] at hcontains
    cases hcontains
  obtain ⟨hok, hsaved⟩ := l.recent_save hkeys page
  obtain ⟨hreply, hkeeps'⟩ := hkeeps.save id page
  refine ⟨hreply.trans hok, ⟨_, hkeeps', ?_, ?_⟩, restore_of_save hcontains page⟩
  · have hothers : (ContextUse.latest log).filter (· ≠ id) = ContextUse.latest log :=
      List.filter_eq_self.2 fun c hc => decide_eq_true fun heq => hlatest (heq ▸ hc)
    rw [hsaved, hrecent, ContextUse.latest, hothers, List.take_take]
    have hpos : 0 < max size 1 := Nat.lt_of_lt_of_le Nat.one_pos (Nat.le_max_right ..)
    obtain ⟨n, hn⟩ := Nat.exists_eq_succ_of_ne_zero (Nat.ne_of_gt hpos)
    rw [hn, List.take_succ_cons, Nat.succ_sub_one, Nat.min_eq_left (Nat.le_succ n)]
  · intro id' page' hmem
    rw [RecencyList.save, dif_neg hkeys] at hmem
    rcases List.mem_append.1 hmem with hmem | hmem
    · exact List.mem_cons_of_mem _ (hentries _ _ (l.makeRoom_sublist.subset hmem))
    · cases List.mem_singleton.1 hmem
      exact List.mem_cons_self ..

/-- An id that was lost leaves the store as it is. -/
theorem lost (h : c.Remembers size log) (id : String) : c.Remembers size (.lost id :: log) := by
  obtain ⟨l, hkeeps, hrecent, hentries⟩ := h
  exact ⟨l, hkeeps, hrecent, fun id page hmem => List.mem_cons_of_mem _ (hentries id page hmem)⟩

theorem retain (h : c.Remembers size log) (hfound : c.restore id = some page) :
    (c.retain id).1 = .ok () ∧ (c.retain id).2.Remembers size (.found id :: log) := by
  have hmem := h.restore_iff.1 (Option.isSome_iff_exists.2 ⟨_, hfound⟩)
  obtain ⟨l, hkeeps, hrecent, hentries⟩ := h
  rw [hkeeps.restore_eq] at hfound
  obtain ⟨hok, hothers, hretained⟩ := l.recent_retain hfound
  obtain ⟨hreply, hkeeps'⟩ := hkeeps.retain id
  refine ⟨hreply.trans hok, _, hkeeps', ?_, fun id' page' hmem' => ?_⟩
  · have hpos : 0 < max size 1 := Nat.lt_of_lt_of_le Nat.one_pos (Nat.le_max_right ..)
    rw [hretained, hrecent, filter_take_of_mem (ContextUse.nodup_latest log) hmem]
    obtain ⟨n, hn⟩ := Nat.exists_eq_succ_of_ne_zero (Nat.ne_of_gt hpos)
    rw [hn, Nat.succ_sub_one]
    rfl
  · rw [hothers] at hmem'
    rcases List.mem_append.1 hmem' with hmem' | hmem'
    · exact List.mem_cons_of_mem _ (hentries _ _ (List.mem_filter.1 hmem').1)
    · cases List.mem_singleton.1 hmem'
      exact List.mem_cons_of_mem _ (hentries _ _ (l.restore_eq_some_iff.1 hfound))

end PageCache.Remembers

end PageEngine
