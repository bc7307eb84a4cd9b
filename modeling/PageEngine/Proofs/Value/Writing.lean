import PageEngine.Proofs.Value.KeyPath

/-! Writing at key paths. A writer goes along the text of a path, one dot after the other, and
puts the value where the segments of the path lead: what was written is read there, and of two
values written at one place only the later one counts. Two places apart from each other may share
the way to where they part. Objects, scalars and missing entries on the shared way keep what the
other place reads. A list there gives way to an object, and with it goes everything that was read
from its items. -/

namespace PageEngine

namespace Text

/-- The first segment ends before the first separator, and the others begin behind it. -/
theorem segments_eq (separator : Char) (cs : List Char) :
    segments separator cs = (cs.takeWhile (· ≠ separator),
      match cs.dropWhile (· ≠ separator) with
      | [] => []
      | _ :: rest => (segments separator rest).1 :: (segments separator rest).2) := by
  induction cs with
  | nil => rfl
  | cons c cs ih =>
    rw [segments]
    by_cases hc : c = separator
    · simp [hc]
    · simp [hc, ih]

end Text

/-- The segments of a text, as the keys that they are. -/
def KeyPath.segmentsOf (path : List Char) : List String :=
  String.ofList (Text.segments '.' path).1 :: (Text.segments '.' path).2.map String.ofList

namespace Value

/-! ### Along the text of a path -/

/-- Put a value at the text of a path: what stands before the first dot names a field, and what
follows the dot leads on from there. -/
def putAlong (v : Value) (path : List Char) (new : Value) : Value :=
  let segment := String.ofList (path.takeWhile (· ≠ '.'))
  let old := (Dictionary.get? segment v.fields).getD .null
  match _h : path.dropWhile (· ≠ '.') with
  | [] => .object (Dictionary.insert segment new v.fields)
  | _ :: rest => .object (Dictionary.insert segment (old.putAlong rest new) v.fields)
termination_by path.length
decreasing_by
  have hlength := (List.dropWhile_suffix (· ≠ '.') : path.dropWhile _ <:+ path).length_le
  rw [_h, List.length_cons] at hlength
  omega

/-- The writer puts the value where the segments lead. -/
theorem putAlong_eq (v : Value) (path : List Char) (new : Value) :
    v.putAlong path new = v.place (KeyPath.segmentsOf path) new := by
  fun_induction putAlong v path new with
  | case1 v path segment h =>
    rw [KeyPath.segmentsOf, Text.segments_eq, h]
    rfl
  | case2 v path segment old dot rest h ih =>
    rw [ih, KeyPath.segmentsOf, KeyPath.segmentsOf, Text.segments_eq '.' path, h]
    rfl

/-! ### Places that share the way -/

def isList : Value → Bool
  | .list _ => true
  | _ => false

/-- A list is kept on the way that two places share. -/
def SharesList (segments segments' : List String) (v : Value) : Prop :=
  ∃ items shared, Keeps (.list items) shared v ∧ shared <+: segments ∧ shared <+: segments'

/-- Look for a list along two places, as long as they do not part. -/
def sharesList : List String → List String → Value → Bool
  | segment :: rest, segment' :: rest', v =>
    v.isList || (segment == segment' &&
      sharesList rest rest' ((Dictionary.get? segment v.fields).getD .null))
  | _, _, v => v.isList

variable {v new : Value} {segments segments' rest : List String} {segment : String}
  {items : List Value}

theorem isList_iff : v.isList = true ↔ ∃ items, v = .list items := by
  cases v <;> simp [isList]

/-- A list further inside is kept in the field that leads there. -/
theorem keeps_list_cons : Keeps (.list items) (segment :: rest) v ↔
    Keeps (.list items) rest ((Dictionary.get? segment v.fields).getD .null) := by
  constructor
  · rintro ⟨fields, inner, rfl, hget, hinner⟩
    rwa [Value.fields, hget]
  · intro h
    cases hget : Dictionary.get? segment v.fields with
    | none =>
      rw [hget] at h
      cases rest with
      | nil => cases h
      | cons next rest =>
        obtain ⟨fields, inner, hnull, -⟩ := h
        cases hnull
    | some inner =>
      rw [hget] at h
      cases v with
      | object fields => exact ⟨fields, inner, rfl, hget, h⟩
      | _ => cases hget

theorem sharesList_of_isList (h : v.isList = true) : SharesList segments segments' v := by
  obtain ⟨items, rfl⟩ := isList_iff.1 h
  exact ⟨items, [], rfl, List.nil_prefix, List.nil_prefix⟩

theorem SharesList.isList_of_nil (h : SharesList segments segments' v)
    (hnil : segments = [] ∨ segments' = []) : v.isList = true := by
  obtain ⟨items, shared, hkeeps, hprefix, hprefix'⟩ := h
  have hshared : shared = [] := by
    rcases hnil with rfl | rfl
    · exact List.prefix_nil.1 hprefix
    · exact List.prefix_nil.1 hprefix'
  subst hshared
  exact isList_iff.2 ⟨items, hkeeps⟩

theorem sharesList_cons_iff {segment' : String} {rest' : List String} :
    SharesList (segment :: rest) (segment' :: rest') v ↔ v.isList = true ∨ segment = segment' ∧
      SharesList rest rest' ((Dictionary.get? segment v.fields).getD .null) := by
  constructor
  · rintro ⟨items, shared, hkeeps, hprefix, hprefix'⟩
    cases shared with
    | nil => exact .inl (isList_iff.2 ⟨items, hkeeps⟩)
    | cons first shared =>
      obtain ⟨rfl, hrest⟩ := List.cons_prefix_cons.1 hprefix
      obtain ⟨rfl, hrest'⟩ := List.cons_prefix_cons.1 hprefix'
      exact .inr ⟨rfl, items, shared, keeps_list_cons.1 hkeeps, hrest, hrest'⟩
  · rintro (h | ⟨rfl, items, shared, hkeeps, hprefix, hprefix'⟩)
    · exact sharesList_of_isList h
    · exact ⟨items, segment :: shared, keeps_list_cons.2 hkeeps,
        List.cons_prefix_cons.2 ⟨rfl, hprefix⟩, List.cons_prefix_cons.2 ⟨rfl, hprefix'⟩⟩

theorem sharesList_iff :
    sharesList segments segments' v = true ↔ SharesList segments segments' v := by
  induction segments generalizing segments' v with
  | nil => exact ⟨sharesList_of_isList, fun h => h.isList_of_nil (.inl rfl)⟩
  | cons segment rest ih =>
    cases segments' with
    | nil => exact ⟨sharesList_of_isList, fun h => h.isList_of_nil (.inr rfl)⟩
    | cons segment' rest' => simp [sharesList, sharesList_cons_iff, ih]

instance (segments segments' : List String) (v : Value) :
    Decidable (SharesList segments segments' v) :=
  decidable_of_iff _ sharesList_iff

theorem follow_null (segments : List String) : Value.null.follow segments = .null := by
  induction segments with
  | nil => rfl
  | cons segment rest ih => exact ih

/-- A step into anything but a list leads to the field of that name. -/
theorem step_of_not_isList (h : v.isList = false) (segment : String) :
    v.step segment = (Dictionary.get? segment v.fields).getD .null := by
  cases v <;> first | rfl | cases h

/-- What is put somewhere changes what is read apart from it only if a list stands on the shared
way; then nothing is read there any more. -/
theorem follow_place_apart (new : Value) (h : ¬Overlap segments segments') :
    (v.place segments new).follow segments' =
      if SharesList segments segments' v then .null else v.follow segments' := by
  induction segments generalizing segments' v with
  | nil => exact absurd (.inl List.nil_prefix) h
  | cons segment rest ih =>
    cases segments' with
    | nil => exact absurd (.inr List.nil_prefix) h
    | cons segment' rest' =>
      have hrest : segment = segment' → ¬Overlap rest rest' := by
        rintro rfl hover
        exact h (hover.imp (List.prefix_cons_inj segment).2 (List.prefix_cons_inj segment).2)
      rw [place, follow_cons, step]
      by_cases hv : v.isList = true
      · -- A list has no fields, so that nothing is found on the other way.
        obtain ⟨items, rfl⟩ := isList_iff.1 hv
        have hfields : (Value.list items).fields = [] := rfl
        rw [if_pos (sharesList_of_isList hv), hfields]
        by_cases heq : segment = segment'
        · subst heq
          rw [Dictionary.get?_insert_self, Option.getD_some, ih (hrest rfl)]
          simp [Dictionary.get?, follow_null]
        · rw [Dictionary.get?_insert_of_ne (Ne.symm heq)]
          simp [follow_null]
      · have hstep := step_of_not_isList (Bool.eq_false_iff.2 hv) segment'
        by_cases heq : segment = segment'
        · subst heq
          rw [Dictionary.get?_insert_self, Option.getD_some, ih (hrest rfl), follow_cons, hstep]
          simp [sharesList_cons_iff, hv]
        · have hapart : ¬SharesList (segment :: rest) (segment' :: rest') v := by
            simp [sharesList_cons_iff, hv, heq]
          rw [Dictionary.get?_insert_of_ne (Ne.symm heq), if_neg hapart, follow_cons, hstep]

end Value

/-- Neither of two key paths begins with all segments of the other. -/
def KeyPath.Apart (path path' : String) : Prop :=
  ¬Value.Overlap (ofString path).segments (ofString path').segments

instance (path path' : String) : Decidable (KeyPath.Apart path path') :=
  inferInstanceAs (Decidable (¬_))

namespace Entries

variable {path path' : String}

/-- Writing at a key path is putting a value at its segments. -/
theorem object_write (entries : Entries) (path : String) (v : Value) :
    .object (entries.write path v) =
      (Value.object entries).place (KeyPath.ofString path).segments v := rfl

/-- Write along the text of a key path. -/
def writeAlong (entries : Entries) (path : String) (v : Value) : Entries :=
  ((Value.object entries).putAlong path.toList v).fields

theorem writeAlong_eq (entries : Entries) (path : String) (v : Value) :
    entries.writeAlong path v = entries.write path v := by
  rw [writeAlong, Value.putAlong_eq]
  rfl

/-- Of two values written at one key path only the later remains. -/
theorem write_write (entries : Entries) (path : String) (v w : Value) :
    (entries.write path v).write path w = entries.write path w := by
  have hplace := Value.place_place (.object entries) (KeyPath.ofString path).segments v w
  rw [← object_write, ← object_write, ← object_write] at hplace
  exact Value.object.inj hplace

/-- A value written at a key path is read there, and nothing of it is left once another value is
written there. Whether the writer goes by the segments of the path or along its text makes no
difference. -/
theorem last_written_counts (entries : Entries) (path : String) (v w : Value) :
    (entries.write path v).read path = v ∧
      (entries.write path v).write path w = entries.write path w ∧
      entries.write path v = entries.writeAlong path v :=
  ⟨entries.read_write path v, entries.write_write path v w, (entries.writeAlong_eq path v).symm⟩

/-- A list is kept on the way that two key paths share. -/
def SharesList (entries : Entries) (path path' : String) : Prop :=
  Value.SharesList (KeyPath.ofString path).segments (KeyPath.ofString path').segments
    (.object entries)

instance (entries : Entries) (path path' : String) : Decidable (entries.SharesList path path') :=
  inferInstanceAs (Decidable (Value.SharesList ..))

/-- A value written at a key path leaves what is read at another one apart from it, unless a list
is kept on the way that both share: then nothing is read there afterwards. -/
theorem read_write_apart (entries : Entries) (v : Value) (h : KeyPath.Apart path path') :
    (entries.write path v).read path' =
      if entries.SharesList path path' then .null else entries.read path' := by
  rw [read_eq_follow, object_write]
  exact Value.follow_place_apart v h

/-- A user with an age and some tags. -/
def taggedUser : Entries :=
  [("user", .object [("age", .ofNat 40), ("tags", .list [.text "a", .text "b"])])]

/-- An object takes the place of the age, and the tags stay. An object takes the place of the tags
when one of them is written, and the other one is gone. -/
theorem read_write_apart_taggedUser :
    KeyPath.Apart "user.age.years" "user.tags.1" ∧
      (taggedUser.write "user.age.years" (.ofNat 41)).read "user.tags.1" = .text "b" ∧
      KeyPath.Apart "user.tags.0" "user.tags.1" ∧
      (taggedUser.write "user.tags.0" (.text "c")).read "user.tags.1" = .null := by
  have hage : KeyPath.Apart "user.age.years" "user.tags.1" := by decide +kernel
  have htags : KeyPath.Apart "user.tags.0" "user.tags.1" := by decide +kernel
  refine ⟨hage, ?_, htags, ?_⟩
  · have hno : ¬taggedUser.SharesList "user.age.years" "user.tags.1" := by decide +kernel
    rw [read_write_apart taggedUser (.ofNat 41) hage, if_neg hno]
    rfl
  · have hshares : taggedUser.SharesList "user.tags.0" "user.tags.1" := by decide +kernel
    rw [read_write_apart taggedUser (.text "c") htags, if_pos hshares]

end Entries

end PageEngine
