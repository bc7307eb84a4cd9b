import PageEngine.Source.LineIndex
import PageEngine.Proofs.Text.Encoding
import Mathlib.Algebra.Group.Nat.Defs
import Mathlib.Data.List.Induction

/-! Placing offsets by counting. The starts of the lines are those of the bytes: one behind each
line feed. Of them just those up to an offset are counted by the line feeds before it, and the last
of these stands where the bytes behind the last line feed begin. So halving the list of starts, with
an exact hit or without one, finds the line and the column that counting finds, and no word
overflows on the way. -/

namespace PageEngine

open Text (byteLength encode)

/-- The byte of a line feed. -/
def lineFeed : UInt8 := 10

namespace Position

/-- The position behind some bytes: a line on for each line feed, and a column on for each byte
behind the last one. -/
def behind (bytes : List UInt8) : Position :=
  ⟨bytes.count lineFeed + 1, (bytes.reverse.takeWhile (· != lineFeed)).length + 1⟩

/-- A position before another: lines count first. -/
def Before (p q : Position) : Prop :=
  p.line < q.line ∨ p.line = q.line ∧ p.column < q.column

variable {bytes more : List UInt8}

theorem before_behind_append (hne : more ≠ []) :
    (behind bytes).Before (behind (bytes ++ more)) := by
  by_cases hfeed : lineFeed ∈ more
  · have := List.count_pos_iff.2 hfeed
    refine .inl ?_
    simp only [behind, List.count_append]
    omega
  · have hmore : ∀ b ∈ more.reverse, (b != lineFeed) = true := fun b hb =>
      bne_iff_ne.2 fun heq => hfeed (heq ▸ List.mem_reverse.1 hb)
    have := List.length_pos_iff.2 hne
    refine .inr ⟨?_, ?_⟩
    · simp only [behind, List.count_append, List.count_eq_zero_of_not_mem hfeed, Nat.add_zero]
    · simp only [behind, List.reverse_append, List.takeWhile_append_of_pos hmore,
        List.length_append, List.length_reverse]
      omega

end Position

/-! ### Starts of lines -/

/-- The offsets behind each line feed among bytes that begin at `offset`. -/
def lineStartsOf (offset : Nat) : List UInt8 → List Nat
  | [] => []
  | b :: bytes =>
    if b = lineFeed then (offset + 1) :: lineStartsOf (offset + 1) bytes
    else lineStartsOf (offset + 1) bytes

section Starts

variable {bytes more : List UInt8} {offset n : Nat}

theorem lineStartsOf_append (offset : Nat) (bytes more : List UInt8) :
    lineStartsOf offset (bytes ++ more) =
      lineStartsOf offset bytes ++ lineStartsOf (offset + bytes.length) more := by
  induction bytes generalizing offset with
  | nil => rfl
  | cons b bytes ih =>
    rw [List.cons_append, lineStartsOf, lineStartsOf, ih, List.length_cons, Nat.add_assoc,
      Nat.add_comm 1]
    split <;> rfl

theorem lineStartsOf_of_not_mem (h : lineFeed ∉ bytes) : lineStartsOf offset bytes = [] := by
  induction bytes generalizing offset with
  | nil => rfl
  | cons b bytes ih =>
    obtain ⟨hb, hbytes⟩ := not_or.1 (List.mem_cons.not.1 h)
    rw [lineStartsOf, if_neg (Ne.symm hb), ih hbytes]

theorem length_lineStartsOf (offset : Nat) (bytes : List UInt8) :
    (lineStartsOf offset bytes).length = bytes.count lineFeed := by
  induction bytes generalizing offset with
  | nil => rfl
  | cons b bytes ih =>
    rw [lineStartsOf]
    split
    · rename_i hb
      rw [hb, List.count_cons_self, List.length_cons, ih]
    · rename_i hb
      rw [List.count_cons_of_ne hb, ih]

theorem bounds_of_mem_lineStartsOf (h : n ∈ lineStartsOf offset bytes) :
    offset < n ∧ n ≤ offset + bytes.length := by
  induction bytes generalizing offset with
  | nil => cases h
  | cons b bytes ih =>
    have hlater (h : n ∈ lineStartsOf (offset + 1) bytes) :
        offset < n ∧ n ≤ offset + (b :: bytes).length := by
      have := ih h
      rw [List.length_cons]
      omega
    rw [lineStartsOf] at h
    split at h
    · rcases List.mem_cons.1 h with rfl | h
      · simp
      · exact hlater h
    · exact hlater h

/-- Lines start in the order of their numbers. -/
theorem sorted_lineStartsOf (offset : Nat) (bytes : List UInt8) :
    (offset :: lineStartsOf offset bytes).Pairwise (· < ·) := by
  refine List.pairwise_cons.2 ⟨fun n hn => (bounds_of_mem_lineStartsOf hn).1, ?_⟩
  induction bytes generalizing offset with
  | nil => exact .nil
  | cons b bytes ih =>
    rw [lineStartsOf]
    split
    · exact List.pairwise_cons.2 ⟨fun n hn => (bounds_of_mem_lineStartsOf hn).1, ih _⟩
    · exact ih _

/-- The last line starts behind the last line feed. -/
theorem getLast_lineStartsOf (bytes : List UInt8) :
    (0 :: lineStartsOf 0 bytes).getLast (List.cons_ne_nil _ _) +
      (bytes.reverse.takeWhile (· != lineFeed)).length = bytes.length := by
  induction bytes using List.reverseRecOn with
  | nil => rfl
  | append_singleton bytes b ih =>
    have hsplit : 0 :: lineStartsOf 0 (bytes ++ [b]) =
        (0 :: lineStartsOf 0 bytes) ++ lineStartsOf bytes.length [b] := by
      rw [lineStartsOf_append, Nat.zero_add, List.cons_append]
    simp only [hsplit, List.reverse_append, List.reverse_singleton, List.singleton_append]
    by_cases hb : b = lineFeed
    · simp [lineStartsOf, hb, List.getLast_cons]
    · simp [lineStartsOf, hb, ← ih, Nat.add_assoc]

/-- Only line feeds have the byte of a line feed. -/
theorem lineFeed_not_mem_encodeChar {c : Char} (h : c ≠ '\n') :
    lineFeed ∉ String.utf8EncodeChar c := by
  have honly : Text.AsciiOnly (· == '\n') := .eq rfl
  intro hmem
  have hbyte := Text.byteIs_of_mem honly hmem
  rw [beq_false_of_ne h] at hbyte
  revert hbyte
  decide

theorem lineStartsFrom_eq (offset : Nat) (cs : List Char) :
    lineStartsFrom offset cs = lineStartsOf offset (encode cs) := by
  induction cs generalizing offset with
  | nil => rfl
  | cons c cs ih =>
    rw [lineStartsFrom, Text.encode_cons, lineStartsOf_append, String.length_utf8EncodeChar]
    split
    · rename_i hc
      rw [hc, ih]
      rfl
    · rename_i hc
      rw [ih, lineStartsOf_of_not_mem (lineFeed_not_mem_encodeChar hc)]
      rfl

end Starts

namespace LineIndex

/-! ### Halving -/

section Search

variable {xs : Array UInt32} {x : UInt32} {lo hi last : Nat}

/-- Where all entries up to `last` are at most `x`, and all later ones are larger, `last` is
found, or else the place behind it. -/
theorem search_eq (hi_le : hi ≤ xs.size) (hlast : last < xs.size) (hx : xs[last] ≤ x)
    (hearlier : ∀ i (h : i < xs.size), i < last → xs[i] < x)
    (hlater : ∀ i (h : i < xs.size), last < i → x < xs[i]) (hlo : lo ≤ last + 1) (hhi : last < hi) :
    search xs x lo hi hi_le = .ok last ∨ search xs x lo hi hi_le = .error (last + 1) := by
  fun_induction search xs x lo hi hi_le with
  | case1 lo hi hi_le hlt mid hmid hexact =>
    have hmid_eq : mid = last := by
      rcases Nat.lt_trichotomy mid last with hless | heq | hmore
      · exact absurd (hearlier mid hmid hless) (by rw [hexact]; exact UInt32.lt_irrefl x)
      · exact heq
      · exact absurd (hlater mid hmid hmore) (by rw [hexact]; exact UInt32.lt_irrefl x)
    rw [hmid_eq]
    exact .inl rfl
  | case2 lo hi hi_le hlt mid hmid hne hless ih =>
    have hbound : mid ≤ last := Nat.le_of_not_lt fun hmore =>
      UInt32.lt_asymm hless (hlater mid hmid hmore)
    exact ih (by omega) hhi
  | case3 lo hi hi_le hlt mid hmid hne hnotless ih =>
    have hbound : last < mid := by
      refine Nat.lt_of_not_le fun hle => ?_
      rcases Nat.lt_or_eq_of_le hle with hless | heq
      · exact hnotless (hearlier mid hmid hless)
      · subst heq
        exact hnotless (UInt32.lt_of_le_of_ne hx hne)
    exact ih hlo hbound
  | case4 lo hi hi_le hlt =>
    have hend : lo = last + 1 := by omega
    rw [hend]
    exact .inr rfl

end Search

/-! ### Texts whose offsets fit into words -/

variable {text : String} {n : Nat}

theorem toNat_ofNatClamp (h : n < 2 ^ 32) : (UInt32.ofNatClamp n).toNat = n :=
  UInt32.toNat_ofNatClamp_of_lt h

theorem toNat_length (h : byteLength text.toList < 2 ^ 32) :
    (ofText text).length.toNat = byteLength text.toList :=
  toNat_ofNatClamp h

/-- No start is held back. -/
theorem toNat_starts (h : byteLength text.toList < 2 ^ 32) :
    (ofText text).starts.toList.map UInt32.toNat = 0 :: lineStartsOf 0 (encode text.toList) := by
  have hword : ∀ n ∈ 0 :: lineStartsOf 0 (encode text.toList),
      (UInt32.toNat ∘ UInt32.ofNatClamp) n = n := by
    intro n hn
    refine toNat_ofNatClamp ?_
    rcases List.mem_cons.1 hn with rfl | hn
    · omega
    · have := (bounds_of_mem_lineStartsOf hn).2
      rw [Text.length_encode] at this
      omega
  rw [ofText, List.toList_toArray, List.map_map, lineStartsFrom_eq, List.map_congr_left hword,
    List.map_id']

theorem startOf_eq {index : LineIndex} {line : Nat} (h : line < index.starts.size) :
    index.startOf line = index.starts[line] := by
  rw [startOf, Array.getElem?_eq_getElem h, Option.getD_some]

/-- The line in which a place behind some bytes stands: it starts behind the last line feed of the
bytes, and all later lines start behind the place. -/
structure IsLineOf (index : LineIndex) (bytes : List UInt8) (line : Nat) : Prop where
  lt_size : line < index.starts.size
  start : (index.startOf line).toNat + (bytes.reverse.takeWhile (· != lineFeed)).length =
    bytes.length
  earlier : ∀ i < line, index.startOf i < index.startOf line
  later : ∀ i < index.starts.size, line < i → bytes.length < (index.startOf i).toNat

/-- The number of the line is that of the line feeds before the place. -/
theorem isLineOf_count (h : byteLength text.toList < 2 ^ 32) {bytes more : List UInt8}
    (hbytes : encode text.toList = bytes ++ more) :
    (ofText text).IsLineOf bytes (bytes.count lineFeed) := by
  have hstarts := toNat_starts h
  have hsplit : 0 :: lineStartsOf 0 (encode text.toList) =
      (0 :: lineStartsOf 0 bytes) ++ lineStartsOf bytes.length more := by
    rw [hbytes, lineStartsOf_append, Nat.zero_add, List.cons_append]
  have hcount : (0 :: lineStartsOf 0 bytes).length = bytes.count lineFeed + 1 := by
    rw [List.length_cons, length_lineStartsOf]
  have hsize : (ofText text).starts.size =
      bytes.count lineFeed + 1 + (lineStartsOf bytes.length more).length := by
    rw [← hcount, ← List.length_append, ← hsplit, ← hstarts, List.length_map,
      Array.length_toList]
  have hget (i : Nat) (hi : i < (ofText text).starts.size) :
      some ((ofText text).startOf i).toNat =
        ((0 :: lineStartsOf 0 bytes) ++ lineStartsOf bytes.length more)[i]? := by
    rw [startOf_eq hi, ← hsplit, ← hstarts, List.getElem?_map, Array.getElem?_toList,
      Array.getElem?_eq_getElem hi]
    rfl
  have hline : bytes.count lineFeed < (ofText text).starts.size := by omega
  refine ⟨hline, ?_, fun i hless => ?_, fun i hi hmore => ?_⟩
  · have hlast : (0 :: lineStartsOf 0 bytes)[bytes.count lineFeed]? =
        some ((0 :: lineStartsOf 0 bytes).getLast (List.cons_ne_nil _ _)) := by
      rw [← List.getLast?_eq_some_getLast, List.getLast?_eq_getElem?, hcount, Nat.add_sub_cancel]
    have hget := hget _ hline
    rw [List.getElem?_append_left (by omega), hlast] at hget
    rw [Option.some.inj hget, getLast_lineStartsOf]
  · have hi : i < (ofText text).starts.size := by omega
    have hsorted := hstarts ▸ sorted_lineStartsOf 0 (encode text.toList)
    have := List.pairwise_iff_getElem.1 hsorted i _ (by simpa using hi) (by simpa using hline) hless
    rw [startOf_eq hi, startOf_eq hline, UInt32.lt_iff_toNat_lt]
    simpa using this
  · have hlater := hget i hi
    rw [List.getElem?_append_right (by omega)] at hlater
    exact (bounds_of_mem_lineStartsOf (List.mem_of_getElem? hlater.symm)).1

/-! ### Placing an offset -/

/-- Placing an offset within the text stays among the words: the line has a start, which is no later
than the offset, and neither line nor column is past the largest word. -/
structure StaysInWords (index : LineIndex) (offset : UInt32) : Prop where
  hasStart : index.lineAt offset < index.starts.size
  line : index.lineAt offset + 1 < 2 ^ 32
  start : index.startOf (index.lineAt offset) ≤ offset
  column : (offset - index.startOf (index.lineAt offset)).toNat + 1 < 2 ^ 32

section Place

variable {index : LineIndex} {bytes : List UInt8} {offset : UInt32} {line : Nat}

theorem IsLineOf.start_le (h : index.IsLineOf bytes line) (hoffset : offset.toNat = bytes.length) :
    index.startOf line ≤ offset := by
  have := h.start
  rw [UInt32.le_iff_toNat_le]
  omega

/-- Halving finds the line. -/
theorem IsLineOf.lineAt_eq (h : index.IsLineOf bytes line) (hoffset : offset.toNat = bytes.length) :
    index.lineAt offset = line := by
  have hline := h.lt_size
  have hstart : index.starts[line] ≤ offset := startOf_eq hline ▸ h.start_le hoffset
  have hearlier (i : Nat) (hi : i < index.starts.size) (hless : i < line) :
      index.starts[i] < offset := by
    have hi := startOf_eq hi ▸ startOf_eq hline ▸ h.earlier i hless
    exact UInt32.lt_of_lt_of_le hi hstart
  have hlater (i : Nat) (hi : i < index.starts.size) (hmore : line < i) :
      offset < index.starts[i] := by
    have hi := startOf_eq hi ▸ h.later i hi hmore
    rwa [← hoffset, ← UInt32.lt_iff_toNat_lt] at hi
  rw [lineAt]
  rcases search_eq (Nat.le_refl _) hline hstart hearlier hlater (Nat.zero_le _) hline with
    hfound | hfound
  · rw [hfound]
  · rw [hfound]
    exact Nat.add_sub_cancel line 1

theorem IsLineOf.toNat_column (h : index.IsLineOf bytes line)
    (hoffset : offset.toNat = bytes.length) :
    (offset - index.startOf line).toNat = (bytes.reverse.takeWhile (· != lineFeed)).length := by
  have := h.start
  rw [UInt32.toNat_sub_of_le _ _ (h.start_le hoffset), hoffset]
  omega

theorem IsLineOf.staysInWords (h : index.IsLineOf bytes (bytes.count lineFeed))
    (hoffset : offset.toNat = bytes.length) (hlength : bytes.length < 2 ^ 32 - 1) :
    index.StaysInWords offset := by
  have hline := h.lineAt_eq hoffset
  have hcount := List.count_le_length (a := lineFeed) (l := bytes)
  have hcolumn := h.toNat_column hoffset
  have hrun := (List.takeWhile_sublist (l := bytes.reverse) (· != lineFeed)).length_le
  rw [List.length_reverse] at hrun
  refine ⟨hline ▸ h.lt_size, ?_, hline ▸ h.start_le hoffset, ?_⟩
  · rw [hline]
    omega
  · rw [hline, hcolumn]
    omega

/-- Where no word overflows, the computed position is the counted one. -/
theorem IsLineOf.positionAt_eq (h : index.IsLineOf bytes (bytes.count lineFeed))
    (hoffset : (min offset index.length).toNat = bytes.length)
    (hlength : bytes.length < 2 ^ 32 - 1) : index.positionAt offset = .behind bytes := by
  have hwords := h.staysInWords hoffset hlength
  have hline := h.lineAt_eq hoffset
  have hcolumn := h.toNat_column hoffset
  have hone : (1 : UInt32).toNat = 1 := rfl
  rw [positionAt, Position.behind, Position.mk.injEq]
  refine ⟨?_, ?_⟩
  · rw [toNat_ofNatClamp hwords.line, hline]
  · rw [UInt32.toNat_add, hone, Nat.mod_eq_of_lt hwords.column, hline, hcolumn]

end Place

theorem toNat_min (x y : UInt32) : (min x y).toNat = min x.toNat y.toNat := by
  have hmin : min x y = if x ≤ y then x else y := rfl
  simp only [hmin, Nat.min_def, UInt32.le_iff_toNat_le]
  split <;> rfl

/-- In a text whose length is no largest word, every offset is placed where counting the line feeds
and the bytes behind the last one places it; on the way no start is held back and no word overflows.
Later offsets have later positions, and an offset is told by its position. -/
theorem positionAt_ofText {text : String} (h : byteLength text.toList < 2 ^ 32 - 1) :
    ((ofText text).starts.toList.map UInt32.toNat = 0 :: lineStartsOf 0 (encode text.toList) ∧
      (ofText text).length.toNat = byteLength text.toList) ∧
    (∀ offset : UInt32,
      let place := min offset.toNat (byteLength text.toList)
      let position := (ofText text).positionAt offset
      (ofText text).StaysInWords (min offset (ofText text).length) ∧
        position = .behind ((encode text.toList).take place) ∧
        ((ofText text).startOf (position.line - 1)).toNat + (position.column - 1) = place) ∧
    ∀ offset later : UInt32, offset < later → later ≤ (ofText text).length →
      ((ofText text).positionAt offset).Before ((ofText text).positionAt later) := by
  have hmax : byteLength text.toList < 2 ^ 32 := by omega
  have hlength := toNat_length hmax
  have hplace (offset : UInt32) :
      ((encode text.toList).take (min offset.toNat (byteLength text.toList))).length =
        (min offset (ofText text).length).toNat := by
    rw [List.length_take, Text.length_encode, toNat_min, hlength]
    omega
  have hbound (offset : UInt32) :
      ((encode text.toList).take (min offset.toNat (byteLength text.toList))).length <
        2 ^ 32 - 1 := by
    rw [List.length_take, Text.length_encode]
    omega
  have hline (offset : UInt32) := isLineOf_count hmax
    (List.take_append_drop (min offset.toNat (byteLength text.toList)) (encode text.toList)).symm
  have hposition (offset : UInt32) :=
    (hline offset).positionAt_eq (hplace offset).symm (hbound offset)
  refine ⟨⟨toNat_starts hmax, hlength⟩, fun offset => ⟨?_, hposition offset, ?_⟩,
    fun offset later hless hle => ?_⟩
  · exact (hline offset).staysInWords (hplace offset).symm (hbound offset)
  · have hstart := (hline offset).start
    rw [List.length_take, Text.length_encode] at hstart
    rw [hposition offset, Position.behind, Nat.add_sub_cancel, Nat.add_sub_cancel, hstart]
    omega
  · rw [UInt32.lt_iff_toNat_lt] at hless
    rw [UInt32.le_iff_toNat_le, hlength] at hle
    rw [hposition offset, hposition later, Nat.min_eq_left hle, Nat.min_eq_left (by omega),
      ← Nat.add_sub_cancel' (Nat.le_of_lt hless), List.take_add]
    refine Position.before_behind_append ?_
    rw [← List.length_pos_iff, List.length_take, List.length_drop, Text.length_encode]
    omega

/-- A text with an empty line, a character of two bytes and a line feed at its end: an offset inside
of the third line, and one past the end. -/
theorem positionAt_ofText_emptyLines :
    byteLength "a\n\né\n".toList < 2 ^ 32 - 1 ∧
      (ofText "a\n\né\n").positionAt 4 = ⟨3, 2⟩ ∧ (ofText "a\n\né\n").positionAt 99 = ⟨4, 1⟩ := by
  have h : byteLength "a\n\né\n".toList < 2 ^ 32 - 1 := by decide +kernel
  have hplaced := (positionAt_ofText h).2.1
  exact ⟨h, (hplaced 4).2.1.trans (by decide +kernel), (hplaced 99).2.1.trans (by decide +kernel)⟩

end LineIndex

end PageEngine
