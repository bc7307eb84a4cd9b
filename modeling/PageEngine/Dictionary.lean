/-! Tables from texts to values, kept as a list of entries in ascending order of key.
Texts are ordered by their characters, which is the order of their UTF-8 bytes. Insertion
is one pass that replaces an equal key, so that looking up what was inserted needs no
knowledge of the order; that the entries stay in order is a law of its own. -/

namespace PageEngine

/-- The entries of a table in ascending order of key. -/
abbrev Dictionary (α : Type) := List (String × α)

namespace Dictionary

variable {α β : Type}

def get? (k : String) : Dictionary α → Option α
  | [] => none
  | (key, value) :: rest => if k = key then some value else get? k rest

/-- Store a value under a key, in place of any value it had. -/
def insert (k : String) (v : α) : Dictionary α → Dictionary α
  | [] => [(k, v)]
  | (key, value) :: rest =>
    if k = key then (k, v) :: rest
    else if k < key then (k, v) :: (key, value) :: rest
    else (key, value) :: insert k v rest

def erase (k : String) : Dictionary α → Dictionary α
  | [] => []
  | (key, value) :: rest => if k = key then rest else (key, value) :: erase k rest

def contains (k : String) (d : Dictionary α) : Bool :=
  (get? k d).isSome

def keys (d : Dictionary α) : List String :=
  d.map Prod.fst

/-- The table of a list of entries; of two entries with one key the later counts. -/
def ofList (entries : List (String × α)) : Dictionary α :=
  entries.foldl (fun d (k, v) => insert k v d) []

/-- Take an entry out of a table. -/
def take (k : String) (d : Dictionary α) : Option α × Dictionary α :=
  (get? k d, erase k d)

/-- Add a value at the end of the list stored under a key. -/
def append (k : String) (v : α) (d : Dictionary (List α)) : Dictionary (List α) :=
  insert k (((get? k d).getD []) ++ [v]) d

/-- The keys of a table are in ascending order, each once. -/
def Ordered (d : Dictionary α) : Prop :=
  d.Pairwise fun a b => a.1 < b.1

@[simp] theorem get?_nil (k : String) : get? k ([] : Dictionary α) = none := rfl

@[simp] theorem get?_insert_self (k : String) (v : α) (d : Dictionary α) :
    get? k (insert k v d) = some v := by
  induction d with
  | nil => simp [insert, get?]
  | cons e rest ih =>
    obtain ⟨key, value⟩ := e
    rw [insert]
    split
    · simp [get?]
    · rename_i hne
      split
      · simp [get?]
      · simp [get?, hne, ih]

theorem get?_insert_of_ne {k k' : String} (h : k' ≠ k) (v : α) (d : Dictionary α) :
    get? k' (insert k v d) = get? k' d := by
  induction d with
  | nil => simp [insert, get?, h]
  | cons e rest ih =>
    obtain ⟨key, value⟩ := e
    rw [insert]
    split
    · rename_i heq
      subst heq
      simp [get?, h]
    · split
      · simp [get?, h]
      · simp only [get?, ih]

theorem get?_insert (k k' : String) (v : α) (d : Dictionary α) :
    get? k' (insert k v d) = if k' = k then some v else get? k' d := by
  split
  · rename_i h
    rw [h, get?_insert_self]
  · rename_i h
    exact get?_insert_of_ne h v d

/-- Of two values stored under one key only the later remains. -/
theorem insert_insert_self (k : String) (v w : α) (d : Dictionary α) :
    insert k v (insert k w d) = insert k v d := by
  induction d with
  | nil => simp [insert]
  | cons e rest ih =>
    obtain ⟨key, value⟩ := e
    by_cases heq : k = key
    · simp [insert, heq]
    · by_cases hlt : k < key
      · simp [insert, heq, hlt]
      · simp [insert, heq, hlt, ih]

theorem mem_of_get? {k : String} {v : α} {d : Dictionary α} (h : get? k d = some v) :
    (k, v) ∈ d := by
  induction d with
  | nil => simp at h
  | cons e rest ih =>
    obtain ⟨key, value⟩ := e
    rw [get?] at h
    split at h
    · rename_i heq
      rw [heq, ← Option.some.inj h]
      exact List.mem_cons_self ..
    · exact List.mem_cons_of_mem _ (ih h)

theorem get?_erase_of_ne {k k' : String} (h : k' ≠ k) (d : Dictionary α) :
    get? k' (erase k d) = get? k' d := by
  induction d with
  | nil => rfl
  | cons e rest ih =>
    obtain ⟨key, value⟩ := e
    rw [erase]
    split
    · rename_i heq
      rw [get?, if_neg (heq ▸ h)]
    · simp only [get?, ih]

theorem erase_of_get?_eq_none {k : String} {d : Dictionary α} (h : get? k d = none) :
    erase k d = d := by
  induction d with
  | nil => rfl
  | cons e rest ih =>
    obtain ⟨key, value⟩ := e
    rw [get?] at h
    split at h
    · cases h
    · rename_i hne
      rw [erase, if_neg hne, ih h]

theorem mem_of_mem_erase {k : String} {d : Dictionary α} {e : String × α} (h : e ∈ erase k d) :
    e ∈ d := by
  induction d with
  | nil => exact h
  | cons f rest ih =>
    rw [erase] at h
    split at h
    · exact List.mem_cons_of_mem _ h
    · rcases List.mem_cons.1 h with rfl | h
      · exact List.mem_cons_self ..
      · exact List.mem_cons_of_mem _ (ih h)

theorem mem_insert {k : String} {v : α} {d : Dictionary α} {e : String × α}
    (h : e ∈ insert k v d) : e = (k, v) ∨ e ∈ d := by
  induction d with
  | nil => simpa [insert] using h
  | cons f rest ih =>
    obtain ⟨key, value⟩ := f
    rw [insert] at h
    split at h
    · rcases List.mem_cons.1 h with rfl | h
      · exact .inl rfl
      · exact .inr (List.mem_cons_of_mem _ h)
    · split at h
      · rcases List.mem_cons.1 h with rfl | h
        · exact .inl rfl
        · exact .inr h
      · rcases List.mem_cons.1 h with rfl | h
        · exact .inr (List.mem_cons_self ..)
        · exact (ih h).imp id (List.mem_cons_of_mem _)

theorem Ordered.insert {d : Dictionary α} (h : Ordered d) (k : String) (v : α) :
    Ordered (Dictionary.insert k v d) := by
  induction d with
  | nil => simp [Dictionary.insert, Ordered]
  | cons e rest ih =>
    obtain ⟨key, value⟩ := e
    obtain ⟨hfirst, hrest⟩ := List.pairwise_cons.1 h
    rw [Dictionary.insert]
    split
    · rename_i heq
      subst heq
      exact List.pairwise_cons.2 ⟨hfirst, hrest⟩
    · rename_i hne
      split
      · rename_i hlt
        refine List.pairwise_cons.2 ⟨fun f hf => ?_, h⟩
        rcases List.mem_cons.1 hf with rfl | hf
        · exact hlt
        · exact String.lt_trans hlt (hfirst f hf)
      · rename_i hnlt
        refine List.pairwise_cons.2 ⟨fun f hf => ?_, ih hrest⟩
        rcases mem_insert hf with rfl | hf
        · refine Decidable.byContradiction fun hge => hne ?_
          exact String.le_antisymm (String.not_lt.1 hge) (String.not_lt.1 hnlt)
        · exact hfirst f hf

end Dictionary

end PageEngine
