import PageEngine.ElementPath

/-! Leaving a branch, paths below one another, and the written form of a path, which belongs to
one path only. -/

namespace PageEngine

/-- The path without its innermost branch. -/
def ElementPath.up (path : ElementPath) : ElementPath := ⟨path.indices.tail⟩

namespace ElementPath

@[simp] theorem up_enter (path : ElementPath) (index : UInt32) :
    (path.enter index).up = path := rfl

@[simp] theorem depth_enter (path : ElementPath) (index : UInt32) :
    (path.enter index).depth = path.depth + 1 := rfl

/-- There is no index to count on, or the last one is followed by the next one. -/
theorem next?_eq_some_iff {path next : ElementPath} :
    path.next? = some next ↔ path = empty ∧ next = empty ∨
      ∃ (outer : ElementPath) (index : UInt32), index ≠ maxIndex ∧
        path = outer.enter index ∧ next = outer.enter (index + 1) := by
  obtain ⟨indices⟩ := path
  cases indices with
  | nil => simp [next?, empty, enter, eq_comm]
  | cons index outer =>
    have hstep : (enter ⟨outer⟩ index).next? = some next ↔ _ := next?_enter_eq_some_iff
    refine hstep.trans ⟨fun h => .inr ⟨⟨outer⟩, index, h.1, rfl, h.2⟩, ?_⟩
    rintro (⟨h, -⟩ | ⟨⟨outer'⟩, index', hindex, h, hnext⟩)
    · cases h
    · cases h
      exact ⟨hindex, hnext⟩

theorem up_next? {path next : ElementPath} (h : path.next? = some next) : next.up = path.up := by
  obtain ⟨rfl, rfl⟩ | ⟨outer, index, -, rfl, rfl⟩ := next?_eq_some_iff.1 h
  · rfl
  · rfl

theorem depth_next? {path next : ElementPath} (h : path.next? = some next) :
    next.depth = path.depth := by
  obtain ⟨rfl, rfl⟩ | ⟨outer, index, -, rfl, rfl⟩ := next?_eq_some_iff.1 h
  · rfl
  · rfl

theorem toNat_le_maxIndex (index : UInt32) : index.toNat ≤ maxIndex.toNat :=
  Nat.le_of_lt_succ index.toNat_lt

theorem toNat_ofNat {n : Nat} (h : n ≤ maxIndex.toNat) : (UInt32.ofNat n).toNat = n :=
  UInt32.toNat_ofNat_of_lt' (Nat.lt_succ_of_le h)

/-- An index that is not the largest one is followed by a larger one. -/
theorem toNat_next {index : UInt32} (h : index ≠ maxIndex) :
    (index + 1).toNat = index.toNat + 1 := by
  have hne : index.toNat ≠ maxIndex.toNat := fun heq => h (UInt32.toNat_inj.1 heq)
  have hmax : maxIndex.toNat = 4294967295 := rfl
  have hlt := index.toNat_lt
  have hadd := UInt32.toNat_add index 1
  have hone : (1 : UInt32).toNat = 1 := rfl
  omega

theorem lt_next {index : UInt32} (h : index ≠ maxIndex) : index < index + 1 := by
  rw [UInt32.lt_iff_toNat_lt, toNat_next h]
  exact Nat.lt_succ_self _

/-- Below the largest index there is always a next sibling. -/
theorem next?_enter_ofNat (path : ElementPath) {n : Nat} (h : n < maxIndex.toNat) :
    (path.enter (.ofNat n)).next? = some (path.enter (.ofNat (n + 1))) := by
  refine next?_enter_eq_some_iff.2 ⟨fun heq => ?_, by rw [UInt32.ofNat_add]; rfl⟩
  have hword := toNat_ofNat (Nat.le_of_lt h)
  rw [heq] at hword
  omega

theorem depth_up (path : ElementPath) : path.up.depth = path.depth - 1 := by
  simp [up, ElementPath.depth]

theorem leave?_eq_up {path : ElementPath} (h : 0 < path.depth) : path.leave? = some path.up := by
  obtain ⟨indices⟩ := path
  cases indices with
  | nil => simp [ElementPath.depth] at h
  | cons index outer => rfl

/-! ### Paths below one another -/

/-- One of two paths leads on from the other. -/
def Comparable (p q : ElementPath) : Prop :=
  p.indices <:+ q.indices ∨ q.indices <:+ p.indices

theorem comparable_refl (p : ElementPath) : p.Comparable p :=
  .inl (List.suffix_refl _)

theorem suffix_enter (path : ElementPath) (index : UInt32) :
    path.indices <:+ (path.enter index).indices := List.suffix_cons ..

theorem Comparable.symm {p q : ElementPath} (h : p.Comparable q) : q.Comparable p := Or.symm h

/-- What lies above a path is comparable with everything that the path is comparable with. -/
theorem Comparable.of_suffix {p q r : ElementPath} (h : q.Comparable r)
    (hp : p.indices <:+ q.indices) : p.Comparable r := by
  rcases h with h | h
  · exact .inl (hp.trans h)
  · exact List.suffix_or_suffix_of_suffix hp h

/-- Two ways on from one path that meet again are the same. -/
theorem Comparable.index_eq {path : ElementPath} {i j : UInt32}
    (h : (path.enter i).Comparable (path.enter j)) : i = j := by
  have heq : ∀ {m n : UInt32}, m :: path.indices <:+ n :: path.indices → m = n := fun hs =>
    (List.cons.inj (hs.eq_of_length rfl)).1
  rcases h with h | h
  · exact heq h
  · exact (heq h).symm

/-- The first path branches off before the second one. -/
def Precedes (p q : ElementPath) : Prop :=
  ∃ (path : ElementPath) (i j : UInt32), i < j ∧
    (path.enter i).indices <:+ p.indices ∧ (path.enter j).indices <:+ q.indices

theorem Precedes.not_comparable {p q : ElementPath} (h : p.Precedes q) : ¬p.Comparable q := by
  obtain ⟨path, i, j, hij, hp, hq⟩ := h
  intro hpq
  have hmeet : (path.enter i).Comparable (path.enter j) :=
    ((hpq.of_suffix hp).symm.of_suffix hq).symm
  exact UInt32.ne_of_lt hij hmeet.index_eq

/-- A written index. -/
def digits (index : UInt32) : List Char := Nat.toDigits 10 index.toNat

theorem isDigit_of_mem_digits {index : UInt32} {c : Char} (h : c ∈ digits index) :
    c.isDigit = true :=
  Nat.isDigit_of_mem_toDigits (by decide) (by decide) h

theorem dot_not_mem_digits (index : UInt32) : '.' ∉ digits index := fun h =>
  absurd (isDigit_of_mem_digits h) (by decide)

theorem toDigits_injective {m n : Nat} (h : Nat.toDigits 10 m = Nat.toDigits 10 n) : m = n :=
  calc m = Nat.ofDigitChars 10 (Nat.toDigits 10 m) 0 := Nat.ofDigitChars_ten_toDigits.symm
    _ = Nat.ofDigitChars 10 (Nat.toDigits 10 n) 0 := by rw [h]
    _ = n := Nat.ofDigitChars_ten_toDigits

theorem digits_injective {m n : UInt32} (h : digits m = digits n) : m = n :=
  UInt32.toNat_inj.1 (toDigits_injective h)

theorem toList_text (path : ElementPath) :
    path.text.toList = ['.'].intercalate (path.toList.map digits) := by
  simp only [text, String.toList_intercalate, List.map_map, Function.comp_def, String.toList_ofList]
  rfl

/-- Only digits and dots are written. -/
theorem isDigit_of_mem_text {path : ElementPath} {c : Char} (h : c ∈ path.text.toList)
    (hdot : c ≠ '.') : c.isDigit = true := by
  rw [toList_text] at h
  generalize path.toList = indices at h
  induction indices with
  | nil => cases h
  | cons index rest ih =>
    cases rest with
    | nil =>
      have h : c ∈ digits index := by simpa using h
      exact isDigit_of_mem_digits h
    | cons next others =>
      rw [List.map_cons, List.map_cons, List.intercalate_cons_cons, List.mem_append,
        List.mem_append, List.mem_singleton] at h
      rcases h with (h | h) | h
      · exact isDigit_of_mem_digits h
      · exact absurd h hdot
      · exact ih h

theorem digits_of_text {path : ElementPath} (h : path.toList ≠ []) :
    path.text.toList.splitOn '.' = path.toList.map digits := by
  rw [toList_text]
  refine List.splitOn_intercalate '.' ?_ (by simpa using h)
  intro l hl
  obtain ⟨n, -, rfl⟩ := List.mem_map.1 hl
  exact dot_not_mem_digits n

/-- A written path can be read in one way only. -/
theorem text_injective {p q : ElementPath} (h : p.text = q.text) : p = q := by
  have hempty : ∀ {p q : ElementPath}, p.text = q.text → p.toList = [] → q.toList = [] := by
    intro p q h hp
    refine Decidable.byContradiction fun hq => ?_
    have hdigits := digits_of_text hq
    rw [← h, toList_text, hp] at hdigits
    cases hlist : q.toList with
    | nil => exact hq hlist
    | cons n rest =>
      rw [hlist] at hdigits
      have hnil := (List.cons.inj hdigits).1
      exact Nat.toDigits_ne_nil hnil.symm
  have hlist : p.toList = q.toList := by
    by_cases hp : p.toList = []
    · rw [hp, hempty h hp]
    · have hq : q.toList ≠ [] := fun hq => hp (hempty h.symm hq)
      have hdigits := digits_of_text hp
      rw [h, digits_of_text hq] at hdigits
      exact ((List.map_inj_right fun _ _ => digits_injective).1 hdigits).symm
  rw [← ofList_toList p, hlist, ofList_toList]

end ElementPath

end PageEngine
