import PageEngine.Proofs.Bytes.Checked
import PageEngine.Proofs.Markup.Reading

/-! Words compared by bytes. For words of ASCII characters this is a comparison of characters,
also when the case of letters does not matter. -/

namespace PageEngine

namespace ByteReader

variable {source word rest : List Char} {pos : Nat} {c : Cursor}

/-- A word of ASCII characters. -/
def IsPlain (word : List Char) : Prop := ∀ w ∈ word, Text.isAscii w = true

/-- The first byte of a character is that of an ASCII character only for that character. -/
theorem byte_eq_iff {w x : Char} (hw : Text.isAscii w = true) {b : UInt8}
    (hb : b ∈ String.utf8EncodeChar x) : UInt8.ofNat w.toNat = b ↔ w = x := by
  have hbyte : Text.byteIs (· == w) b = (x == w) := Text.byteIs_of_mem (.eq hw) hb
  constructor
  · rintro rfl
    rw [Text.byteIs_ascii hw, beq_self_eq_true] at hbyte
    exact (eq_of_beq hbyte.symm).symm
  · rintro rfl
    rw [Text.encodeChar_of_isAscii hw, List.mem_singleton] at hb
    exact hb.symm

theorem isPrefixOf_encode (hword : IsPlain word) (cs : List Char) :
    (Text.encode word).isPrefixOf (Text.encode cs) = (afterWord? word cs).isSome := by
  induction word generalizing cs with
  | nil => rfl
  | cons w ws ih =>
    obtain ⟨hw, hws⟩ := List.forall_mem_cons.1 hword
    rw [Text.encode_cons, Text.encodeChar_of_isAscii hw]
    cases cs with
    | nil => rfl
    | cons x cs =>
      obtain ⟨b, bytes, hbytes⟩ :=
        List.exists_cons_of_ne_nil (String.utf8EncodeChar_ne_nil (c := x))
      have hb := byte_eq_iff hw (hbytes ▸ List.mem_cons_self .. : b ∈ String.utf8EncodeChar x)
      rw [Text.encode_cons, hbytes, afterWord?, List.singleton_append, List.cons_append,
        List.isPrefixOf]
      by_cases hx : w = x
      · subst hx
        rw [Text.encodeChar_of_isAscii hw, List.cons.injEq] at hbytes
        rw [if_pos rfl, ← ih hws, hbytes.1, ← hbytes.2, beq_self_eq_true, Bool.true_and,
          List.nil_append]
      · rw [if_neg hx, beq_eq_false_iff_ne.2 (hb.not.2 hx), Bool.false_and]
        rfl

theorem startsWith_eq (hword : IsPlain word) (h : c.Stands source pos) :
    startsWith source word pos = pure (afterWord? word c.rest).isSome := by
  rw [startsWith, h.bytesFrom_eq, pure_bind, isPrefixOf_encode hword]

/-! ### In any case of letters -/

theorem lowerByte_of_isAscii {x : Char} (hx : Text.isAscii x = true) :
    lowerByte (UInt8.ofNat x.toNat) = UInt8.ofNat x.toLower.toNat ∧
      Text.isAscii x.toLower = true := by
  have hall : ∀ n < 128, lowerByte (UInt8.ofNat n) = UInt8.ofNat (Char.ofNat n).toLower.toNat ∧
      Text.isAscii (Char.ofNat n).toLower = true := by decide
  have hchar := hall x.toNat (of_decide_eq_true hx)
  rwa [Char.ofNat_toNat] at hchar

theorem lowerByte_of_large {b : UInt8} (h : 0x80 ≤ b.toNat) : lowerByte b = b := by
  rw [lowerByte, Text.byteIs_of_large h, if_neg Bool.false_ne_true]

theorem toLower_of_not_isAscii {x : Char} (hx : Text.isAscii x = false) : x.toLower = x := by
  have hlarge : ¬(x.val ≥ 'A'.val ∧ x.val ≤ 'Z'.val) := fun ⟨_, hle⟩ => by
    have hle := UInt32.le_iff_toNat_le.1 hle
    have hnot : ¬x.val.toNat < 0x80 := of_decide_eq_false hx
    exact hnot (Nat.lt_of_le_of_lt hle (by decide))
  exact dif_neg hlarge

theorem isAscii_of_toLower_eq {w x : Char} (hw : Text.isAscii w = true)
    (h : w.toLower = x.toLower) : Text.isAscii x = true := by
  cases hx : Text.isAscii x with
  | true => rfl
  | false =>
    have hascii := (lowerByte_of_isAscii hw).2
    rw [h, toLower_of_not_isAscii hx] at hascii
    exact hx.symm.trans hascii

theorem lowerByte_eq_iff {w x : Char} (hw : Text.isAscii w = true) {b : UInt8}
    (hb : b ∈ String.utf8EncodeChar x) :
    lowerByte b = lowerByte (UInt8.ofNat w.toNat) ↔ w.toLower = x.toLower := by
  obtain ⟨hlower, hascii⟩ := lowerByte_of_isAscii hw
  rw [hlower, eq_comm]
  cases hx : Text.isAscii x with
  | true =>
    obtain ⟨hlower', -⟩ := lowerByte_of_isAscii hx
    have hascii' := (lowerByte_of_isAscii hx).2
    rw [Text.encodeChar_of_isAscii hx, List.mem_singleton] at hb
    rw [hb, hlower']
    exact byte_eq_iff hascii (by rw [Text.encodeChar_of_isAscii hascii']; exact List.mem_singleton_self _)
  | false =>
    rw [lowerByte_of_large (Text.le_of_mem_encodeChar hx b hb), toLower_of_not_isAscii hx]
    exact byte_eq_iff hascii hb

theorem lower_beq_encode (hword : IsPlain word) (cs : List Char) :
    (((Text.encode cs).take (Text.encode word).length).map lowerByte ==
      (Text.encode word).map lowerByte) = (afterWordAnyCase? word cs).isSome := by
  induction word generalizing cs with
  | nil => rfl
  | cons w ws ih =>
    obtain ⟨hw, hws⟩ := List.forall_mem_cons.1 hword
    rw [Text.encode_cons, Text.encodeChar_of_isAscii hw, List.singleton_append, List.length_cons]
    cases cs with
    | nil => rfl
    | cons x cs =>
      obtain ⟨b, bytes, hbytes⟩ :=
        List.exists_cons_of_ne_nil (String.utf8EncodeChar_ne_nil (c := x))
      have hb := lowerByte_eq_iff hw (hbytes ▸ List.mem_cons_self .. : b ∈ String.utf8EncodeChar x)
      rw [Text.encode_cons, hbytes, afterWordAnyCase?, List.cons_append, List.take_succ_cons,
        List.map_cons, List.map_cons, List.cons_beq_cons]
      by_cases hx : w.toLower = x.toLower
      · have hascii := isAscii_of_toLower_eq hw hx
        rw [Text.encodeChar_of_isAscii hascii, List.cons.injEq] at hbytes
        rw [if_pos hx, ← ih hws, hb.2 hx, ← hbytes.2, beq_self_eq_true, Bool.true_and,
          List.nil_append]
      · rw [if_neg hx, beq_eq_false_iff_ne.2 (hb.not.2 hx), Bool.false_and]
        rfl

theorem startsWithAnyCase_eq (hword : IsPlain word) (h : c.Stands source pos) :
    startsWithAnyCase source word pos = pure (afterWordAnyCase? word c.rest).isSome := by
  rw [startsWithAnyCase, h.bytesFrom_eq, pure_bind]
  exact congrArg pure (lower_beq_encode hword c.rest)

/-- No word begins within a character. -/
theorem startsWithAnyCase_inside {w : Char} {ws : List Char} {b : UInt8} {bytes : List UInt8}
    (hw : Text.isAscii w = true) (hb : 0x80 ≤ b.toNat)
    (hdrop : (Text.encode source).drop pos = b :: bytes) :
    startsWithAnyCase source (w :: ws) pos = pure false := by
  have hpos : pos ≤ Text.byteLength source := by
    have hlength := congrArg List.length hdrop
    rw [List.length_drop, Text.length_encode, List.length_cons] at hlength
    omega
  obtain ⟨hlower, hascii⟩ := lowerByte_of_isAscii hw
  have hne : (lowerByte b == lowerByte (UInt8.ofNat w.toNat)) = false := by
    rw [lowerByte_of_large hb, hlower, beq_eq_false_iff_ne]
    rintro rfl
    rw [Text.toNat_of_isAscii hascii] at hb
    exact Nat.not_lt.2 hb (of_decide_eq_true hascii)
  rw [startsWithAnyCase, bytesFrom, if_pos hpos, pure_bind, hdrop, Text.encode_cons,
    Text.encodeChar_of_isAscii hw, List.singleton_append, List.length_cons, List.take_succ_cons]
  dsimp only
  rw [List.map_cons, List.map_cons, List.cons_beq_cons, hne, Bool.false_and]

/-- The word that was found takes as many bytes as the word that was looked for. -/
theorem stands_afterWordAnyCase (hword : IsPlain word)
    (hafter : afterWordAnyCase? word c.rest = some rest) :
    c.rest = c.rest.take word.length ++ rest ∧
      Text.byteLength (c.rest.take word.length) = Text.byteLength word := by
  obtain ⟨found, hfound, hcase⟩ := exists_of_afterWordAnyCase? hafter
  have hlength : found.length = word.length := by simpa using congrArg List.length hcase
  have hplain : IsPlain found := by
    intro x hx
    have hmem : x.toLower ∈ word.map Char.toLower := hcase ▸ List.mem_map_of_mem hx
    obtain ⟨w, hw, heq⟩ := List.mem_map.1 hmem
    exact isAscii_of_toLower_eq (hword w hw) heq
  have htake : c.rest.take word.length = found := by rw [hfound, ← hlength, List.take_left]
  rw [htake]
  exact ⟨hfound, by
    rw [Text.byteLength_of_isAscii hplain, Text.byteLength_of_isAscii hword, hlength]⟩

theorem eq_append_take_of_afterWord? (hafter : afterWord? word c.rest = some rest) :
    c.rest = c.rest.take word.length ++ rest ∧
      Text.byteLength (c.rest.take word.length) = Text.byteLength word := by
  rw [eq_of_afterWord? hafter, List.take_left]
  exact ⟨rfl, rfl⟩

/-! ### Words that go on -/

/-- What follows a word at a place, perhaps in any case of letters. -/
def after? (anyCase : Bool) (word cs : List Char) : Option (List Char) :=
  if anyCase then afterWordAnyCase? word cs else afterWord? word cs

theorem stands_after? {anyCase : Bool} (hword : IsPlain word)
    (hafter : after? anyCase word c.rest = some rest) :
    c.rest = c.rest.take word.length ++ rest ∧
      Text.byteLength (c.rest.take word.length) = Text.byteLength word := by
  unfold after? at hafter
  split at hafter
  · exact stands_afterWordAnyCase hword hafter
  · exact eq_append_take_of_afterWord? hafter

theorem wordAt_eq {anyCase : Bool} (hword : IsPlain word) {ends : Char → Bool}
    (hends : Text.AsciiOnly ends) (h : c.Stands source pos) :
    wordAt source anyCase word ends pos =
      pure ((after? anyCase word c.rest).any fun rest => rest.head?.any ends) := by
  have hfound : beginsWith source anyCase word pos = pure (after? anyCase word c.rest).isSome := by
    unfold beginsWith after?
    split
    · exact startsWithAnyCase_eq hword h
    · exact startsWith_eq hword h
  rw [wordAt, hfound, pure_bind]
  cases hafter : after? anyCase word c.rest with
  | none => rfl
  | some rest =>
    obtain ⟨hrest, hlength⟩ := stands_after? hword hafter
    have hpast := h.past hrest
    rw [hlength] at hpast
    rw [hpast.isAt_eq hends]
    rfl

/-- Within a character there is no word. -/
theorem wordAt_inside {w : Char} {ws : List Char} {ends : Char → Bool} {b : UInt8}
    {bytes : List UInt8} (hw : Text.isAscii w = true) (hb : 0x80 ≤ b.toNat)
    (hdrop : (Text.encode source).drop pos = b :: bytes) :
    wordAt source true (w :: ws) ends pos = pure false := by
  rw [wordAt, beginsWith, if_pos rfl, startsWithAnyCase_inside hw hb hdrop, pure_bind]
  rfl

end ByteReader

end PageEngine
