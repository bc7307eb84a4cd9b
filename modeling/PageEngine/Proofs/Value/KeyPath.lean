import PageEngine.Proofs.Dictionary
import PageEngine.Value.KeyPath

/-! What is kept at a key path. The entries of a component are the fields of an object, so that
a key path leads from one object to the next. Where it leads through objects stays as it is
when something is put apart from it. -/

namespace PageEngine

namespace Value

/-- Segments lead through objects to a value. -/
def Keeps (kept : Value) : List String → Value → Prop
  | [], v => v = kept
  | segment :: rest, v =>
    ∃ fields inner, v = .object fields ∧ Dictionary.get? segment fields = some inner ∧
      Keeps kept rest inner

/-- One of two places lies inside the other. -/
def Overlap (segments segments' : List String) : Prop :=
  segments <+: segments' ∨ segments' <+: segments

instance (segments segments' : List String) : Decidable (Overlap segments segments') :=
  inferInstanceAs (Decidable (_ ∨ _))

variable {v new kept : Value} {segments segments' : List String}

theorem Keeps.follow_append (h : Keeps kept segments v) (rest : List String) :
    v.follow (segments ++ rest) = kept.follow rest := by
  induction segments generalizing v with
  | nil => exact congrArg (Value.follow rest) h
  | cons segment segments ih =>
    obtain ⟨fields, inner, rfl, hget, hinner⟩ := h
    rw [List.cons_append, follow_cons, step, hget, Option.getD_some]
    exact ih hinner

theorem keeps_place (v new : Value) (segments : List String) :
    Keeps new segments (v.place segments new) := by
  induction segments generalizing v with
  | nil => rfl
  | cons segment rest ih => exact ⟨_, _, rfl, Dictionary.get?_insert_self .., ih _⟩

/-- What is put inside of a kept value changes that value. -/
theorem Keeps.place (h : Keeps kept segments v) (rest : List String) (new : Value) :
    Keeps (kept.place rest new) segments (v.place (segments ++ rest) new) := by
  induction segments generalizing v with
  | nil => exact congrArg (fun v : Value => v.place rest new) h
  | cons segment segments ih =>
    obtain ⟨fields, inner, rfl, hget, hinner⟩ := h
    refine ⟨_, _, rfl, Dictionary.get?_insert_self .., ?_⟩
    rw [Value.fields, hget]
    exact ih hinner

/-- What is put apart from a kept value leaves it. -/
theorem Keeps.place_of_not_overlap (h : Keeps kept segments v)
    (hapart : ¬Overlap segments' segments) : Keeps kept segments (v.place segments' new) := by
  induction segments generalizing v segments' with
  | nil => exact absurd (.inr List.nil_prefix) hapart
  | cons segment rest ih =>
    cases segments' with
    | nil => exact absurd (.inl List.nil_prefix) hapart
    | cons segment' rest' =>
      obtain ⟨fields, inner, rfl, hget, hinner⟩ := h
      by_cases heq : segment = segment'
      · subst heq
        have hrest : ¬Overlap rest' rest := fun hover => hapart <|
          hover.imp (List.prefix_cons_inj segment).2 (List.prefix_cons_inj segment).2
        refine ⟨_, _, rfl, Dictionary.get?_insert_self .., ?_⟩
        rw [Value.fields, hget]
        exact ih hinner hrest
      · refine ⟨_, inner, rfl, ?_, hinner⟩
        rw [Dictionary.get?_insert_of_ne heq]
        exact hget

/-- Where something is put further inside, an object is kept. -/
theorem keeps_place_inside (v new : Value) (segments : List String) (segment : String)
    (rest : List String) :
    ∃ fields, Keeps (.object fields) segments (v.place (segments ++ segment :: rest) new) := by
  induction segments generalizing v with
  | nil => exact ⟨_, rfl⟩
  | cons first segments ih =>
    obtain ⟨fields, hkeeps⟩ := ih ((Dictionary.get? first v.fields).getD .null)
    exact ⟨fields, _, _, rfl, Dictionary.get?_insert_self .., hkeeps⟩

/-- Segments lead through objects, with their fields in order, to a field that is there. -/
def leads : List String → Value → Bool
  | [], _ => true
  | segment :: rest, .object fields =>
    decide (Dictionary.Ordered fields) && (Dictionary.get? segment fields).any (leads rest)
  | _ :: _, _ => false

/-- What is read there can be put back. -/
theorem place_follow_of_leads (h : v.leads segments = true) :
    v.place segments (v.follow segments) = v := by
  induction segments generalizing v with
  | nil => rfl
  | cons segment rest ih =>
    cases v with
    | object fields =>
      rw [leads, Bool.and_eq_true, Option.any_eq_true] at h
      obtain ⟨hordered, inner, hget, hinner⟩ := h
      rw [follow_cons, step, place, Value.fields, hget, Option.getD_some, ih hinner]
      rw [Dictionary.insert_of_get? (of_decide_eq_true hordered) hget]
    | _ => cases h

end Value

/-- All segments of a key path. -/
def KeyPath.segments (path : KeyPath) : List String := path.first :: path.rest

namespace Entries

/-- Put a value at a key path. -/
def place (entries : Entries) (path : KeyPath) (new : Value) : Entries :=
  Dictionary.insert path.first ((get entries path.first).place path.rest new) entries

/-- Segments lead from entries through objects to a value. -/
def Keeps (kept : Value) (segments : List String) (entries : Entries) : Prop :=
  Value.Keeps kept segments (.object entries)

variable {kept : Value} {segments : List String} {entries entries' : Entries} {path : String}

/-- Whether a key path leads through objects to a value that is there. A single key always does:
what is missing there reads as null. -/
def leads (entries : Entries) (path : String) : Bool :=
  (get entries (KeyPath.ofString path).first).leads (KeyPath.ofString path).rest

theorem get_write (entries : Entries) (path : String) (new : Value) (key : String) :
    get (entries.write path new) key = if key = (KeyPath.ofString path).first then
      (get entries key).place (KeyPath.ofString path).rest new else get entries key := by
  unfold write get
  rw [Dictionary.get?_insert]
  split
  · rename_i heq
    rw [heq, Option.getD_some]
  · rfl

/-- Where a key path leads to a value, putting that value back changes nothing. -/
theorem get_write_read (h : entries.leads path = true) (key : String) :
    get (entries.write path (entries.read path)) key = get entries key := by
  rw [get_write]
  split
  · rename_i heq
    rw [heq]
    exact Value.place_follow_of_leads h
  · rfl

/-- What is written at a key path is read there. -/
theorem read_write (entries : Entries) (path : String) (v : Value) :
    (entries.write path v).read path = v := by
  simp only [read, write, get_insert_self, Value.follow_place]

theorem read_congr (h : ∀ key, get entries' key = get entries key) (path : String) :
    entries'.read path = entries.read path :=
  congrArg (Value.follow (KeyPath.ofString path).rest) (h _)

theorem leads_congr (h : ∀ key, get entries' key = get entries key) (path : String) :
    entries'.leads path = entries.leads path :=
  congrArg (Value.leads (KeyPath.ofString path).rest) (h _)

theorem read_eq_follow (entries : Entries) (path : String) :
    entries.read path = (Value.object entries).follow (KeyPath.ofString path).segments := rfl

/-- What is read at a key path is what leads on from something kept on the way. -/
theorem Keeps.read (h : Keeps kept segments entries) {rest : List String}
    (hpath : (KeyPath.ofString path).segments = segments ++ rest) :
    entries.read path = kept.follow rest := by
  rw [read_eq_follow, hpath]
  exact h.follow_append rest

end Entries

end PageEngine
