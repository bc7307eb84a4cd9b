import PageEngine.Markup.FormatError
import PageEngine.Text.Blank

/-! A place in a template: the byte offset and the characters still to read. Moving on
shortens what is to be read and never changes it, so every reader built from these moves
ends. -/

namespace PageEngine

structure Cursor where
  offset : Nat
  rest : List Char
  deriving DecidableEq, Repr

namespace Cursor

/-- The place after `taken`, where `rest` follows. -/
def past (c : Cursor) (taken rest : List Char) : Cursor :=
  ⟨c.offset + Text.byteLength taken, rest⟩

/-- The place after the characters that satisfy `p`. -/
def skipWhile (p : Char → Bool) (c : Cursor) : Cursor :=
  c.past (c.rest.takeWhile p) (c.rest.dropWhile p)

/-- The place after any blanks. -/
def skipSpace (c : Cursor) : Cursor :=
  c.skipWhile Text.isMarkupSpace

/-- Move past one expected character. -/
def expect (expected : Char) (c : Cursor) : Except Fault Cursor :=
  match c.rest with
  | [] => .error ⟨.unexpectedEnd expected, c.offset⟩
  | found :: rest =>
    if found = expected then .ok (c.past [found] rest)
    else .error ⟨.expected expected found, c.offset⟩

@[simp] theorem rest_past (c : Cursor) (taken rest : List Char) :
    (c.past taken rest).rest = rest := rfl

theorem length_skipWhile_le (p : Char → Bool) (c : Cursor) :
    (c.skipWhile p).rest.length ≤ c.rest.length :=
  (List.dropWhile_sublist p).length_le

theorem length_skipSpace_le (c : Cursor) : c.skipSpace.rest.length ≤ c.rest.length :=
  length_skipWhile_le _ c

theorem length_lt_of_expect {e : Char} {c d : Cursor} (h : c.expect e = .ok d) :
    d.rest.length < c.rest.length := by
  unfold expect at h
  split at h
  · simp at h
  · rename_i hrest
    split at h
    · obtain rfl := Except.ok.inj h
      simp [hrest]
    · simp at h

end Cursor

/-- The characters after `word`, if the text begins with it. -/
def afterWord? : List Char → List Char → Option (List Char)
  | [], cs => some cs
  | _ :: _, [] => none
  | w :: ws, c :: cs => if w = c then afterWord? ws cs else none

/-- The characters after `word`, if the text begins with it in any letter case. -/
def afterWordAnyCase? : List Char → List Char → Option (List Char)
  | [], cs => some cs
  | _ :: _, [] => none
  | w :: ws, c :: cs => if w.toLower = c.toLower then afterWordAnyCase? ws cs else none

theorem eq_of_afterWord? {word cs rest : List Char} (h : afterWord? word cs = some rest) :
    cs = word ++ rest := by
  induction word generalizing cs with
  | nil => simpa [afterWord?] using h
  | cons w ws ih =>
    cases cs with
    | nil => simp [afterWord?] at h
    | cons c cs =>
      rw [afterWord?] at h
      split at h
      · rename_i hwc
        rw [hwc, ih h]
        rfl
      · simp at h

theorem length_of_afterWordAnyCase? {word cs rest : List Char}
    (h : afterWordAnyCase? word cs = some rest) : cs.length = word.length + rest.length := by
  induction word generalizing cs with
  | nil => simp [afterWordAnyCase?] at h; simp [h]
  | cons w ws ih =>
    cases cs with
    | nil => simp [afterWordAnyCase?] at h
    | cons c cs =>
      rw [afterWordAnyCase?] at h
      split at h
      · simp only [List.length_cons, ih h]; omega
      · simp at h

end PageEngine
