import PageEngine.Proofs.Walk.Stores

/-! The last store at a place. What is read after many stores is told by the last one that
touches the place, and by what is stored apart from it afterwards. Nothing that was stored
earlier counts. -/

namespace PageEngine

variable {address segments : List String} {stores : List Store} {store : Store}
variable {values : Entries} {v : Value}

/-- A store reaches what lies at a place, above it, or inside. -/
def Store.Touches (address segments : List String) (store : Store) : Prop :=
  store.address = address ∧ Value.Overlap store.path.segments segments

instance (address segments : List String) (store : Store) :
    Decidable (store.Touches address segments) :=
  inferInstanceAs (Decidable (_ ∧ _))

/-- The last of some stores that touches a place, and the stores after it. -/
structure IsLastStore (address segments : List String) (stores : List Store) (store : Store)
    (after : List Store) : Prop where
  split : ∃ before, stores = before ++ store :: after
  touches : store.Touches address segments
  apart : ∀ later ∈ after, ¬later.Touches address segments

theorem exists_isLastStore (address segments : List String) (stores : List Store) :
    (∃ store after, IsLastStore address segments stores store after) ∨
      ∀ store ∈ stores, ¬store.Touches address segments := by
  induction stores with
  | nil => exact .inr (by simp)
  | cons first rest ih =>
    rcases ih with ⟨store, after, ⟨before, rfl⟩, htouches, hapart⟩ | hapart
    · exact .inl ⟨store, after, ⟨first :: before, rfl⟩, htouches, hapart⟩
    · by_cases htouches : first.Touches address segments
      · exact .inl ⟨first, rest, ⟨[], rfl⟩, htouches, hapart⟩
      · refine .inr fun store hmem => ?_
        rcases List.mem_cons.1 hmem with rfl | hmem
        · exact htouches
        · exact hapart store hmem

/-! ### Stores that do not touch a place -/

theorem Entries.Keeps.applied (h : values.Keeps v segments)
    (hapart : ¬store.Touches address segments) :
    (Store.applied address values store).Keeps v segments := by
  unfold Store.applied
  split
  · rename_i haddress
    exact Value.Keeps.place_of_not_overlap h fun hover => hapart ⟨haddress, hover⟩
  · exact h

theorem Entries.Keeps.stored (h : values.Keeps v segments)
    (hapart : ∀ store ∈ stores, ¬store.Touches address segments) :
    (stores.foldl (Store.applied address) values).Keeps v segments := by
  induction stores generalizing values with
  | nil => exact h
  | cons first rest ih =>
    refine ih (h.applied (hapart first (List.mem_cons_self ..))) fun store hmem => ?_
    exact hapart store (List.mem_cons_of_mem _ hmem)

/-- Two collections of values keep the same at a place. -/
def Entries.Agree (segments : List String) (values values' : Entries) : Prop :=
  ∃ v, values.Keeps v segments ∧ values'.Keeps v segments

/-- Stores apart from a place change what lies on the way there alike. -/
theorem Entries.Agree.applied {values' : Entries} {rest : List String}
    (h : Entries.Agree segments values values')
    (hapart : ¬store.Touches address (segments ++ rest)) :
    Entries.Agree segments (Store.applied address values store)
      (Store.applied address values' store) := by
  obtain ⟨v, hv, hv'⟩ := h
  unfold Store.applied
  split
  · rename_i haddress
    by_cases hinside : segments <+: store.path.segments
    · obtain ⟨inner, hinner⟩ := hinside
      refine ⟨v.place inner store.value, ?_, ?_⟩
      · have hplaced := Value.Keeps.place hv inner store.value
        rwa [hinner] at hplaced
      · have hplaced := Value.Keeps.place hv' inner store.value
        rwa [hinner] at hplaced
    · have hover : ¬Value.Overlap store.path.segments segments := by
        rintro (houter | hinner)
        · exact hapart ⟨haddress, .inl (houter.trans (List.prefix_append ..))⟩
        · exact hinside hinner
      exact ⟨v, Value.Keeps.place_of_not_overlap hv hover,
        Value.Keeps.place_of_not_overlap hv' hover⟩
  · exact ⟨v, hv, hv'⟩

theorem Entries.Agree.stored {values' : Entries} {rest : List String}
    (h : Entries.Agree segments values values')
    (hapart : ∀ store ∈ stores, ¬store.Touches address (segments ++ rest)) :
    Entries.Agree segments (stores.foldl (Store.applied address) values)
      (stores.foldl (Store.applied address) values') := by
  induction stores generalizing values values' with
  | nil => exact h
  | cons first others ih =>
    refine ih (h.applied (hapart first (List.mem_cons_self ..))) fun store hmem => ?_
    exact hapart store (List.mem_cons_of_mem _ hmem)

/-! ### Reading after stores -/

variable {path : String} {after : List Store}

/-- A value that is no object is read after some stores if and only if it would be read without
anything from before the last store. -/
theorem IsLastStore.read_iff
    (h : IsLastStore address (KeyPath.ofString path).segments stores store after)
    (hv : ∀ fields, v ≠ .object fields) :
    (stores.foldl (Store.applied address) values).read path = v ↔
      ((store :: after).foldl (Store.applied address) []).read path = v := by
  obtain ⟨⟨before, rfl⟩, ⟨rfl, hover⟩, hapart⟩ := h
  rw [List.foldl_append]
  generalize before.foldl (Store.applied store.address) values = values
  have happlied : ∀ values : Entries, (store :: after).foldl (Store.applied store.address) values =
      after.foldl (Store.applied store.address) (values.place store.path store.value) := by
    intro values
    rw [List.foldl_cons, Store.applied, if_pos rfl]
  have hplaced : ∀ values : Entries,
      (values.place store.path store.value).Keeps store.value store.path.segments :=
    fun values => Value.keeps_place (.object values) store.value store.path.segments
  rw [happlied, happlied]
  by_cases houter : store.path.segments <+: (KeyPath.ofString path).segments
  · obtain ⟨rest, hrest⟩ := houter
    have hagree : Entries.Agree store.path.segments (values.place store.path store.value)
        (Entries.place [] store.path store.value) := ⟨_, hplaced _, hplaced _⟩
    rw [← hrest] at hapart
    obtain ⟨kept, hkept, hkept'⟩ := hagree.stored hapart
    rw [hkept.read hrest.symm, hkept'.read hrest.symm]
  · obtain ⟨rest, hrest⟩ := hover.resolve_left houter
    have hread : ∀ values : Entries, (after.foldl (Store.applied store.address)
        (values.place store.path store.value)).read path ≠ v := by
      intro values hread
      cases rest with
      | nil => exact houter ⟨[], by rw [List.append_nil, ← hrest, List.append_nil]⟩
      | cons segment rest =>
        obtain ⟨fields, hfields⟩ := Value.keeps_place_inside (.object values) store.value
          (KeyPath.ofString path).segments segment rest
        rw [hrest] at hfields
        have hplaced : (values.place store.path store.value).Keeps (.object fields)
            (KeyPath.ofString path).segments := hfields
        have hkept := hplaced.stored hapart
        rw [hkept.read (List.append_nil _).symm] at hread
        exact hv fields hread.symm
    exact iff_of_false (hread _) (hread _)

/-- A value that was kept at a key path is read there after some stores if and only if the last
one that touches the place brings the same. -/
theorem Entries.Keeps.read_stored_iff (h : values.Keeps v (KeyPath.ofString path).segments)
    (hv : ∀ fields, v ≠ .object fields) :
    (stores.foldl (Store.applied address) values).read path = v ↔
      ∀ store after, IsLastStore address (KeyPath.ofString path).segments stores store after →
        ((store :: after).foldl (Store.applied address) []).read path = v := by
  constructor
  · intro hread store after hlast
    exact (hlast.read_iff hv).1 hread
  · intro hbrings
    rcases exists_isLastStore address (KeyPath.ofString path).segments stores with
      ⟨store, after, hlast⟩ | hapart
    · exact (hlast.read_iff hv).2 (hbrings store after hlast)
    · have hkept := (h.stored hapart).read (List.append_nil _).symm
      exact hkept

end PageEngine
