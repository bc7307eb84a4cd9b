import Mathlib.Data.List.Induction
import Mathlib.Data.List.Nodup
import PageEngine.Dictionary

/-! Tables as collections of entries. In an ordered table every entry is found under its key, and
storing or erasing a value changes the collection of entries by just that one. -/

namespace PageEngine.Dictionary

variable {α : Type} {k : String} {v : α} {d : Dictionary α}

instance (d : Dictionary α) : Decidable (Ordered d) :=
  inferInstanceAs (Decidable (d.Pairwise fun a b => a.1 < b.1))

theorem get?_eq_some_iff (h : Ordered d) : get? k d = some v ↔ (k, v) ∈ d := by
  refine ⟨mem_of_get?, fun hmem => ?_⟩
  induction d with
  | nil => cases hmem
  | cons e rest ih =>
    obtain ⟨hfirst, hrest⟩ := List.pairwise_cons.1 h
    rcases List.mem_cons.1 hmem with rfl | hmem
    · simp [get?]
    · have hne : k ≠ e.1 := (String.ne_of_lt (hfirst _ hmem)).symm
      rw [get?, if_neg hne]
      exact ih hrest hmem

theorem erase_eq_filter (h : Ordered d) (k : String) :
    erase k d = d.filter fun e => e.1 ≠ k := by
  induction d with
  | nil => rfl
  | cons e rest ih =>
    obtain ⟨hfirst, hrest⟩ := List.pairwise_cons.1 h
    rw [erase]
    split
    · rename_i heq
      rw [List.filter_cons_of_neg (by simp [heq])]
      refine (List.filter_eq_self.2 fun f hf => decide_eq_true ?_).symm
      rw [heq]
      exact (String.ne_of_lt (hfirst f hf)).symm
    · rename_i hne
      rw [List.filter_cons_of_pos (by simpa using Ne.symm hne), ih hrest]

theorem get?_erase_self (h : Ordered d) (k : String) : get? k (erase k d) = none := by
  cases hget : get? k (erase k d) with
  | none => rfl
  | some v =>
    have hmem := mem_of_get? hget
    rw [erase_eq_filter h] at hmem
    exact absurd rfl (of_decide_eq_true (List.mem_filter.1 hmem).2)

/-- A value that is there is stored again without any change. -/
theorem insert_of_get? (h : Ordered d) (hget : get? k d = some v) : insert k v d = d := by
  induction d with
  | nil => cases hget
  | cons e rest ih =>
    obtain ⟨key, value⟩ := e
    obtain ⟨hfirst, hrest⟩ := List.pairwise_cons.1 h
    rw [get?] at hget
    rw [insert]
    split at hget
    · rename_i heq
      rw [if_pos heq, heq, Option.some.inj hget]
    · rename_i hne
      have hlt : key < k := hfirst _ (mem_of_get? hget)
      have hnlt : ¬k < key := fun hgt => String.lt_irrefl _ (String.lt_trans hlt hgt)
      rw [if_neg hne, if_neg hnlt, ih hrest hget]

theorem Ordered.erase (h : Ordered d) (k : String) : Ordered (Dictionary.erase k d) := by
  rw [erase_eq_filter h]
  exact h.filter _

/-- Storing a value adds one entry to those of the other keys. -/
theorem perm_insert (h : Ordered d) (k : String) (v : α) :
    (insert k v d).Perm ((k, v) :: Dictionary.erase k d) := by
  induction d with
  | nil => exact .refl _
  | cons e rest ih =>
    obtain ⟨key, value⟩ := e
    obtain ⟨hfirst, hrest⟩ := List.pairwise_cons.1 h
    rw [insert, Dictionary.erase]
    split
    · exact .refl _
    · split
      · rename_i hlt
        have habsent : get? k rest = none := by
          cases hget : get? k rest with
          | none => rfl
          | some w =>
            have hlater := hfirst _ (mem_of_get? hget)
            exact absurd (String.lt_trans hlt hlater) (String.lt_irrefl _)
        rw [erase_of_get?_eq_none habsent]
      · exact ((ih hrest).cons _).trans (.swap ..)

/-- Behind all other keys, an entry is stored at the end. -/
theorem insert_of_forall_lt (h : ∀ e ∈ d, e.1 < k) (v : α) : insert k v d = d ++ [(k, v)] := by
  induction d with
  | nil => rfl
  | cons e rest ih =>
    have hlt : e.1 < k := h e List.mem_cons_self
    have hne : k ≠ e.1 := (String.ne_of_lt hlt).symm
    have hnlt : ¬k < e.1 := fun hgt => String.lt_irrefl _ (String.lt_trans hlt hgt)
    rw [insert, if_neg hne, if_neg hnlt, ih fun f hf => h f (List.mem_cons_of_mem _ hf)]
    rfl

theorem nodup_keys (h : Ordered d) : (d.map Prod.fst).Nodup :=
  List.pairwise_map.2 (h.imp String.ne_of_lt)

theorem lt_or_eq_or_gt (k k' : String) : k < k' ∨ k = k' ∨ k' < k := by
  by_cases hlt : k < k'
  · exact .inl hlt
  · by_cases hgt : k' < k
    · exact .inr (.inr hgt)
    · exact .inr (.inl (String.le_antisymm (String.not_lt.1 hgt) (String.not_lt.1 hlt)))

theorem insert_comm_of_lt {k' : String} (h : k < k') (v w : α) (d : Dictionary α) :
    insert k v (insert k' w d) = insert k' w (insert k v d) := by
  have hne := String.ne_of_lt h
  have hnlt := String.lt_asymm h
  induction d with
  | nil => simp [insert, h, hne, hne.symm, hnlt]
  | cons e rest ih =>
    obtain ⟨key, value⟩ := e
    rcases lt_or_eq_or_gt k key with hkey | rfl | hkey
    · -- Both tables begin with the smaller key, and the other goes behind it.
      have hkeyNe := String.ne_of_lt hkey
      rcases lt_or_eq_or_gt k' key with hkey' | rfl | hkey'
      · simp [insert, h, hne, hne.symm, hnlt, hkey, hkeyNe, hkey', String.ne_of_lt hkey']
      · simp [insert, h, hne, hne.symm, hnlt]
      · simp [insert, hne.symm, hnlt, hkey, hkeyNe, (String.ne_of_lt hkey').symm,
          String.lt_asymm hkey']
    · simp [insert, hne.symm, hnlt]
    · have hkey' := String.lt_trans hkey h
      simp [insert, (String.ne_of_lt hkey).symm, String.lt_asymm hkey,
        (String.ne_of_lt hkey').symm, String.lt_asymm hkey', ih]

/-- Values under two keys may be stored in either order. -/
theorem insert_comm {k' : String} (h : k ≠ k') (v w : α) (d : Dictionary α) :
    insert k v (insert k' w d) = insert k' w (insert k v d) := by
  rcases lt_or_eq_or_gt k k' with hlt | heq | hgt
  · exact insert_comm_of_lt hlt v w d
  · exact absurd heq h
  · exact (insert_comm_of_lt hgt w v d).symm

/-- The order of entries with different keys makes no difference to their table. -/
theorem ofList_perm {entries entries' : List (String × α)}
    (hnodup : (entries.map Prod.fst).Nodup) (h : entries.Perm entries') :
    ofList entries = ofList entries' := by
  refine h.foldl_eq' (fun e he e' he' found => ?_) []
  by_cases hkey : e.1 = e'.1
  · rw [List.inj_on_of_nodup_map hnodup he he' hkey]
  · exact insert_comm (Ne.symm hkey) ..

/-- An ordered table is the table of its own entries. -/
theorem Ordered.ofList_eq (h : Ordered d) : Dictionary.ofList d = d := by
  induction d using List.reverseRecOn with
  | nil => rfl
  | append_singleton d e ih =>
    obtain ⟨hd, -, hlast⟩ := List.pairwise_append.1 h
    have hfold : Dictionary.ofList (d ++ [e]) =
        Dictionary.insert e.1 e.2 (Dictionary.ofList d) := by
      rw [Dictionary.ofList, List.foldl_append]
      rfl
    rw [hfold, ih hd, insert_of_forall_lt fun e' he' => hlast e' he' e (List.mem_singleton_self e)]

end PageEngine.Dictionary
