import PageEngine.Proofs.ElementPath
import PageEngine.Web.ActionUrl

/-! Addresses are read as they were written. The context id is followed by the first dot, and the
path by the end of the text. -/

namespace PageEngine

namespace Text

theorem digitsValue_eq {cs : List Char} (h : ∀ c ∈ cs, c.isDigit = true) (acc : Nat) :
    digitsValue acc cs = some (Nat.ofDigitChars 10 cs acc) := by
  induction cs generalizing acc with
  | nil => rfl
  | cons c cs ih =>
    obtain ⟨hc, hcs⟩ := List.forall_mem_cons.1 h
    rw [digitsValue, if_pos hc, ih hcs, Nat.ofDigitChars_cons]
    rfl

theorem readUnsigned_toDigits (n : Nat) : readUnsigned (Nat.toDigits 10 n) = some n := by
  have hdigits : ∀ c ∈ Nat.toDigits 10 n, c.isDigit = true := fun c hc =>
    Nat.isDigit_of_mem_toDigits (by decide) (by decide) hc
  have hvalue : readDigits (Nat.toDigits 10 n) = some n := by
    rw [readDigits.eq_2 _ Nat.toDigits_ne_nil, digitsValue_eq hdigits, Nat.ofDigitChars_ten_toDigits]
  unfold readUnsigned
  split
  · rename_i cs heq
    exact absurd (hdigits '+' (heq ▸ List.mem_cons_self ..)) (by decide)
  · exact hvalue

theorem intercalate_eq_joinSegments (separator : Char) (first : List Char)
    (rest : List (List Char)) :
    [separator].intercalate (first :: rest) = joinSegments separator first rest := by
  induction rest generalizing first with
  | nil => simp [joinSegments]
  | cons next rest ih =>
    rw [List.intercalate_cons_cons, ih]
    simp [joinSegments]

end Text

namespace ElementPath

theorem readIndex_digits (index : UInt32) : readIndex (digits index) = some index := by
  have hle : index.toNat ≤ maxIndex.toNat := Nat.le_of_lt_succ index.toNat_lt
  rw [readIndex, digits, Text.readUnsigned_toDigits, Option.filter_some,
    if_pos (decide_eq_true hle), Option.map_some, UInt32.ofNat_toNat]

/-- A path is read as it was written. -/
theorem read_text (path : ElementPath) : read path.text = some path := by
  rw [← path.ofList_toList]
  generalize path.toList = indices
  have hread : (indices.map digits).mapM readIndex = some indices := by
    induction indices with
    | nil => rfl
    | cons index rest ih =>
      rw [List.map_cons, List.mapM_cons, readIndex_digits, ih]
      rfl
  cases indices with
  | nil => rfl
  | cons index rest =>
    have htext := toList_text (ofList (index :: rest))
    rw [toList_ofList, List.map_cons, Text.intercalate_eq_joinSegments] at htext
    have hempty : (ofList (index :: rest)).text.isEmpty = false := by
      refine Bool.eq_false_iff.2 fun hempty => ?_
      rw [String.isEmpty_iff.1 hempty, String.toList_empty] at htext
      exact Nat.toDigits_ne_nil (List.append_eq_nil_iff.1 htext.symm).1
    have hsegments : ∀ segment ∈ rest.map digits, '.' ∉ segment := by
      simpa using fun index _ => dot_not_mem_digits index
    have hcut := Text.segments_joinSegments (dot_not_mem_digits index) hsegments
    rw [read, hempty, if_neg Bool.false_ne_true, htext, hcut]
    dsimp only
    rw [← List.map_cons, hread]
    rfl

end ElementPath

namespace ActionUrl

theorem cutAtDot_append {cs : List Char} (h : '.' ∉ cs) (rest : List Char) :
    cutAtDot (cs ++ '.' :: rest) = some (cs, rest) := by
  have hall : ∀ c ∈ cs, (c != '.') = true := fun c hc =>
    bne_iff_ne.2 fun heq => h (heq ▸ hc)
  rw [cutAtDot, List.dropWhile_append_of_pos hall, List.takeWhile_append_of_pos hall]
  simp

/-- An address is read as it was written. -/
theorem read_text {url : ActionUrl} (hcontext : url.context ≠ "")
    (hdot : '.' ∉ url.context.toList) : read url.text = some url := by
  have htext : url.text.toList = start ++ (url.context.toList ++ '.' :: url.sender.text.toList) := by
    simp [text, String.toList_append, List.append_assoc]
  have hempty : url.context.toList.isEmpty = false := by
    simpa using hcontext
  rw [read, htext, if_pos (by simp), List.drop_left, cutAtDot_append hdot]
  dsimp only
  rw [hempty, if_neg Bool.false_ne_true, String.ofList_toList, String.ofList_toList,
    ElementPath.read_text]
  rfl

end ActionUrl

end PageEngine
