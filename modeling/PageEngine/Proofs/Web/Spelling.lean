import Mathlib.Data.List.Forall2
import Mathlib.Data.List.TakeWhile
import PageEngine.Proofs.Text.Numeral
import PageEngine.Proofs.Web.ActionUrl

/-! Every way to write an address. Only the numerals leave a choice, and an address written again
stands for the same element. -/

namespace PageEngine

namespace ElementPath

/-- A segment that stands for an index. -/
def Segment (index : UInt32) (segment : List Char) : Prop :=
  Text.Numeral index.toNat segment

/-- The characters that stand for a path: none for the empty path, or one numeral for each index
with a dot before each one after the first. -/
inductive Spelling : ElementPath → List Char → Prop where
  | empty : Spelling empty []
  | indices {index : UInt32} {indices : List UInt32} {first : List Char} {rest : List (List Char)}
      (hfirst : Segment index first) (hrest : List.Forall₂ Segment indices rest) :
      Spelling (ofList (index :: indices)) (Text.joinSegments '.' first rest)

theorem readIndex_eq_some_iff {cs : List Char} {index : UInt32} :
    readIndex cs = some index ↔ Segment index cs := by
  simp only [readIndex, Option.map_eq_some_iff, Option.filter_eq_some_iff,
    Text.readUnsigned_eq_some_iff, decide_eq_true_eq]
  constructor
  · rintro ⟨n, ⟨hn, hle⟩, rfl⟩
    rwa [Segment, UInt32.toNat_ofNat_of_lt' (Nat.lt_succ_of_le hle)]
  · intro h
    exact ⟨index.toNat, ⟨h, Nat.le_of_lt_succ index.toNat_lt⟩, UInt32.ofNat_toNat⟩

theorem mapM_readIndex_eq_some_iff {segments : List (List Char)} {indices : List UInt32} :
    segments.mapM readIndex = some indices ↔ List.Forall₂ Segment indices segments := by
  induction segments generalizing indices with
  | nil => cases indices <;> simp
  | cons segment rest ih =>
    cases indices with
    | nil => simp [Option.bind_eq_some_iff]
    | cons index indices => simp [Option.bind_eq_some_iff, readIndex_eq_some_iff, ih]

/-- Numerals with dots between them are cut at the dots. -/
theorem segments_of_forall₂ {index : UInt32} {indices : List UInt32} {first : List Char}
    {rest : List (List Char)} (hfirst : Segment index first)
    (hrest : List.Forall₂ Segment indices rest) :
    Text.segments '.' (Text.joinSegments '.' first rest) = (first, rest) := by
  refine Text.segments_joinSegments hfirst.point_not_mem ?_
  induction hrest with
  | nil => simp
  | cons hnext _ ih => exact List.forall_mem_cons.2 ⟨hnext.point_not_mem, ih⟩

/-- The reader of a text that is not empty. -/
theorem read_of_ne_nil {text : String} (h : text.toList ≠ []) :
    read text = (((Text.segments '.' text.toList).1 :: (Text.segments '.' text.toList).2).mapM
      readIndex).map ofList := by
  rw [read, if_neg (by simpa using h)]

/-- Exactly the spellings of a path are read as the path. -/
theorem read_eq_some_iff {text : String} {path : ElementPath} :
    read text = some path ↔ path.Spelling text.toList := by
  constructor
  · intro h
    by_cases hempty : text.toList = []
    · rw [read, if_pos (by simpa using hempty)] at h
      rw [hempty, ← Option.some.inj h]
      exact .empty
    · rw [read_of_ne_nil hempty, Option.map_eq_some_iff] at h
      obtain ⟨indices, hindices, rfl⟩ := h
      obtain ⟨index, others, hfirst, hrest, rfl⟩ :=
        List.forall₂_cons_right_iff.1 (mapM_readIndex_eq_some_iff.1 hindices)
      rw [← Text.joinSegments_segments '.' text.toList]
      exact .indices hfirst hrest
  · intro h
    generalize hcs : text.toList = cs at h
    cases h with
    | empty => rw [String.toList_eq_nil_iff.1 hcs]; rfl
    | @indices index indices first rest hfirst hrest =>
      have hne : first ≠ [] := by
        rintro rfl
        cases readIndex_eq_some_iff.2 hfirst
      have htext : text.toList ≠ [] := by simp [hcs, Text.joinSegments, hne]
      rw [read_of_ne_nil htext, hcs, segments_of_forall₂ hfirst hrest,
        mapM_readIndex_eq_some_iff.2 (.cons hfirst hrest)]
      rfl

end ElementPath

namespace ActionUrl

/-- The characters that stand for an address: `/wo/`, a context id without a dot that is not empty,
a dot, and a spelling of the path. -/
def Spelling (url : ActionUrl) (cs : List Char) : Prop :=
  url.context ≠ "" ∧ '.' ∉ url.context.toList ∧
    ∃ sender, url.sender.Spelling sender ∧ cs = start ++ (url.context.toList ++ '.' :: sender)

theorem cutAtDot_eq_some_iff {cs before after : List Char} :
    cutAtDot cs = some (before, after) ↔ '.' ∉ before ∧ cs = before ++ '.' :: after := by
  constructor
  · intro h
    rw [cutAtDot] at h
    have happend := List.takeWhile_append_dropWhile (p := (· != '.')) (l := cs)
    split at h
    · cases h
    · rename_i c rest hrest
      cases h
      have hhead := List.head_dropWhile_not (p := (· != '.')) (l := cs) (by simp [hrest])
      obtain rfl : c = '.' := by simpa [hrest] using hhead
      rw [hrest] at happend
      exact ⟨fun hmem => by simpa using List.mem_takeWhile_imp hmem, happend.symm⟩
  · rintro ⟨hbefore, rfl⟩
    exact cutAtDot_append hbefore after

/-- Exactly the spellings of an address are read as the address. -/
theorem read_eq_some_iff {text : String} {url : ActionUrl} :
    read text = some url ↔ url.Spelling text.toList := by
  constructor
  · intro h
    rw [read] at h
    split at h
    · rename_i hstart
      obtain ⟨rest, hrest⟩ := List.isPrefixOf_iff_prefix.1 hstart
      rw [← hrest, List.drop_left] at h
      split at h
      · cases h
      · rename_i context sender hcut
        obtain ⟨hdot, rfl⟩ := cutAtDot_eq_some_iff.1 hcut
        split at h
        · cases h
        · rename_i hcontext
          obtain ⟨path, hpath, rfl⟩ := Option.map_eq_some_iff.1 h
          have hsender := ElementPath.read_eq_some_iff.1 hpath
          rw [String.toList_ofList] at hsender
          refine ⟨by simpa using hcontext, by simpa using hdot, sender, hsender, ?_⟩
          simpa using hrest.symm
    · cases h
  · rintro ⟨hcontext, hdot, sender, hsender, hcs⟩
    have hempty : url.context.toList.isEmpty = false := by simpa using hcontext
    rw [read, hcs, if_pos (by simp), List.drop_left, cutAtDot_append hdot]
    dsimp only
    rw [hempty, if_neg Bool.false_ne_true, String.ofList_toList,
      ElementPath.read_eq_some_iff.2 (by rwa [String.toList_ofList])]
    rfl

/-- The addresses that are read as they were written, and every way to write an address. Written
again, an address that was read stands for the same context and the same path. -/
theorem read_text_iff :
    (∀ url : ActionUrl, read url.text = some url ↔
      url.context ≠ "" ∧ '.' ∉ url.context.toList) ∧
    (∀ (text : String) (url : ActionUrl), read text = some url ↔ url.Spelling text.toList) ∧
    ∀ text : String, (read text).bind (fun url => read url.text) = read text := by
  have hagain : ∀ {text : String} {url : ActionUrl}, read text = some url →
      url.context ≠ "" ∧ '.' ∉ url.context.toList := by
    intro text url h
    obtain ⟨hcontext, hdot, -⟩ := read_eq_some_iff.1 h
    exact ⟨hcontext, hdot⟩
  refine ⟨fun url => ⟨hagain, fun ⟨hcontext, hdot⟩ => read_text hcontext hdot⟩,
    fun text url => read_eq_some_iff, fun text => ?_⟩
  cases h : read text with
  | none => rfl
  | some url =>
    obtain ⟨hcontext, hdot⟩ := hagain h
    exact read_text hcontext hdot

end ActionUrl

end PageEngine
