import PageEngine.Text.Bytes

/-! The bytes of a text. An ASCII character is one byte of the same value; all bytes of other
characters lie above these. So a test for ASCII characters can be made on single bytes. -/

namespace PageEngine.Text

theorem encodeChar_of_isAscii {c : Char} (h : isAscii c = true) :
    String.utf8EncodeChar c = [UInt8.ofNat c.toNat] := by
  have hle : c.val.toNat ≤ 0x7f := Nat.le_of_lt_succ (of_decide_eq_true h)
  unfold String.utf8EncodeChar
  exact if_pos hle

theorem utf8Size_of_isAscii {c : Char} (h : isAscii c = true) : c.utf8Size = 1 := by
  rw [← String.length_utf8EncodeChar, encodeChar_of_isAscii h]
  rfl

/-- A text of ASCII characters has a byte for each. -/
theorem byteLength_of_isAscii {cs : List Char} (h : ∀ c ∈ cs, isAscii c = true) :
    byteLength cs = cs.length := by
  induction cs with
  | nil => rfl
  | cons c cs ih =>
    obtain ⟨hc, hcs⟩ := List.forall_mem_cons.1 h
    rw [byteLength_cons, utf8Size_of_isAscii hc, ih hcs, List.length_cons, Nat.add_comm]

/-- All bytes of other characters are large. -/
theorem le_of_mem_encodeChar {c : Char} (h : isAscii c = false) :
    ∀ b ∈ String.utf8EncodeChar c, 0x80 ≤ b.toNat := by
  have hlarge : ¬c.val.toNat ≤ 0x7f := fun hle =>
    of_decide_eq_false h (Nat.lt_succ_of_le hle)
  intro b hb
  unfold String.utf8EncodeChar at hb
  dsimp only at hb
  rw [if_neg hlarge] at hb
  split at hb
  · simp only [List.mem_cons, List.not_mem_nil, or_false] at hb
    rcases hb with rfl | rfl <;> simp only [UInt8.toNat_ofNat'] <;> omega
  split at hb
  · simp only [List.mem_cons, List.not_mem_nil, or_false] at hb
    rcases hb with rfl | rfl | rfl <;> simp only [UInt8.toNat_ofNat'] <;> omega
  · simp only [List.mem_cons, List.not_mem_nil, or_false] at hb
    rcases hb with rfl | rfl | rfl | rfl <;> simp only [UInt8.toNat_ofNat'] <;> omega

/-- All bytes of a character but the first are large. -/
theorem le_of_mem_tail {c : Char} : ∀ b ∈ (String.utf8EncodeChar c).tail, 0x80 ≤ b.toNat := by
  intro b hb
  cases hascii : isAscii c with
  | true =>
    rw [encodeChar_of_isAscii hascii] at hb
    cases hb
  | false => exact le_of_mem_encodeChar hascii b (List.mem_of_mem_tail hb)

/-! ### Tests on bytes -/

/-- Only ASCII characters have a property. -/
def AsciiOnly (q : Char → Bool) : Prop := ∀ c, q c = true → isAscii c = true

theorem toNat_of_isAscii {c : Char} (h : isAscii c = true) :
    (UInt8.ofNat c.toNat).toNat = c.toNat := by
  have hlt : c.toNat < 0x80 := of_decide_eq_true h
  rw [UInt8.toNat_ofNat']
  exact Nat.mod_eq_of_lt (by omega)

theorem byteIs_ascii {c : Char} (h : isAscii c = true) (q : Char → Bool) :
    byteIs q (UInt8.ofNat c.toNat) = q c := by
  rw [byteIs, toNat_of_isAscii h, Char.ofNat_toNat, decide_eq_true (of_decide_eq_true h),
    Bool.true_and]

theorem ofNat_of_mem {c : Char} (h : isAscii c = true) {b : UInt8}
    (hb : b ∈ String.utf8EncodeChar c) : Char.ofNat b.toNat = c := by
  rw [encodeChar_of_isAscii h, List.mem_singleton] at hb
  rw [hb, toNat_of_isAscii h, Char.ofNat_toNat]

theorem byteIs_of_large {b : UInt8} (h : 0x80 ≤ b.toNat) (q : Char → Bool) :
    byteIs q b = false := by
  rw [byteIs, decide_eq_false (Nat.not_lt.2 h), Bool.false_and]

/-- The bytes of a character tell whether it has a property that only ASCII characters have. -/
theorem byteIs_of_mem {q : Char → Bool} (hq : AsciiOnly q) {c : Char} {b : UInt8}
    (hb : b ∈ String.utf8EncodeChar c) : byteIs q b = q c := by
  cases hascii : isAscii c with
  | true =>
    rw [encodeChar_of_isAscii hascii, List.mem_singleton] at hb
    rw [hb, byteIs_ascii hascii]
  | false =>
    have hnot : q c = false := Bool.eq_false_iff.2 fun h => by simp [hq c h] at hascii
    rw [byteIs_of_large (le_of_mem_encodeChar hascii b hb), hnot]

theorem AsciiOnly.eq {c : Char} (hc : isAscii c = true) : AsciiOnly (· == c) := by
  intro d hd
  rw [eq_of_beq hd]
  exact hc

theorem AsciiOnly.or {q r : Char → Bool} (hq : AsciiOnly q) (hr : AsciiOnly r) :
    AsciiOnly fun c => q c || r c := by
  intro c hc
  rcases Bool.or_eq_true _ _ ▸ hc with hc | hc
  · exact hq c hc
  · exact hr c hc

/-! ### Runs of bytes -/

/-- The run of bytes of a kind is that of the characters of a kind. -/
theorem takeWhile_encode {p : UInt8 → Bool} {q : Char → Bool}
    (h : ∀ c, ∀ b ∈ String.utf8EncodeChar c, p b = q c) (cs : List Char) :
    (encode cs).takeWhile p = encode (cs.takeWhile q) := by
  induction cs with
  | nil => rfl
  | cons c cs ih =>
    rw [encode_cons, List.takeWhile_cons]
    cases hc : q c with
    | true =>
      have hall : ∀ b ∈ String.utf8EncodeChar c, p b = true := fun b hb => (h c b hb).trans hc
      rw [List.takeWhile_append_of_pos hall, ih, if_pos rfl, encode_cons]
    | false =>
      obtain ⟨b, bytes, hbytes⟩ := List.exists_cons_of_ne_nil (String.utf8EncodeChar_ne_nil (c := c))
      have hb : p b = false := (h c b (hbytes ▸ List.mem_cons_self ..)).trans hc
      rw [hbytes, List.cons_append, List.takeWhile_cons, hb]
      rfl

end PageEngine.Text
