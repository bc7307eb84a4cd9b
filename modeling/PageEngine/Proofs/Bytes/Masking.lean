import PageEngine.Proofs.Bytes.Compile

/-! Masking is exact. Each byte of the mask is told by the lexeme that its byte of the source
belongs to. The ranges that bindings are cut out at begin and end between lexemes, so a literal
lies inside of one or apart from it, and is put back as it stands in the source. -/

namespace PageEngine

open Text (byteLength encode encode_append encode_cons length_encode)

namespace Lexeme

/-- The byte at an offset of some lexemes is byte `k` of one of them. -/
inductive HasByte : List Lexeme → Nat → Lexeme → Nat → Prop
  | here {l : Lexeme} {ls : List Lexeme} {k : Nat} (hk : k < l.size) : HasByte (l :: ls) k l k
  | later {first l : Lexeme} {ls : List Lexeme} {i k : Nat} (h : HasByte ls i l k) :
    HasByte (first :: ls) (first.size + i) l k

/-- A byte of a comment in the mask. -/
def blankByte (b : UInt8) : UInt8 :=
  if b = UInt8.ofNat '\n'.toNat then b else UInt8.ofNat ' '.toNat

/-- A byte of a lexeme in the mask: comments leave their line breaks and blanks, and literals
their quotes and filling. -/
def maskByte (l : Lexeme) (k : Nat) (b : UInt8) : UInt8 :=
  match l with
  | .plain _ => b
  | .literal _ => if k = 0 ∨ k + 1 = l.size then b else UInt8.ofNat '_'.toNat
  | _ => blankByte b

variable {ls more : List Lexeme} {l l' : Lexeme} {i k k' : Nat}

namespace HasByte

theorem lt_size (h : HasByte ls i l k) : i < Stretch.size ls ∧ k < l.size := by
  induction h with
  | here hk => exact ⟨Nat.lt_add_right _ hk, hk⟩
  | later _ ih => exact ⟨Nat.add_lt_add_left ih.1 _, ih.2⟩

/-- A byte belongs to one lexeme. -/
theorem unique (h : HasByte ls i l k) (h' : HasByte ls i l' k') : l' = l ∧ k' = k := by
  induction h with
  | here hk =>
    cases h' with
    | here => exact ⟨rfl, rfl⟩
    | later => omega
  | @later first l ls i k h ih =>
    generalize hn : first.size + i = n at h'
    cases h' with
    | here => omega
    | @later _ _ _ j _ h' =>
      obtain rfl : j = i := Nat.add_left_cancel hn.symm
      exact ih h'

theorem split (h : HasByte ls i l k) :
    ∃ before after, ls = before ++ l :: after ∧ i = Stretch.size before + k := by
  induction h with
  | here => exact ⟨[], _, rfl, (Nat.zero_add _).symm⟩
  | @later first l ls i k _ ih =>
    obtain ⟨before, after, rfl, rfl⟩ := ih
    exact ⟨first :: before, after, rfl, (Nat.add_assoc ..).symm⟩

theorem append_right (h : HasByte ls i l k) (more : List Lexeme) :
    HasByte (ls ++ more) i l k := by
  induction h with
  | here hk => exact .here hk
  | later _ ih => exact .later ih

theorem append_left (h : HasByte ls i l k) (before : List Lexeme) :
    HasByte (before ++ ls) (Stretch.size before + i) l k := by
  induction before with
  | nil => rwa [Stretch.size, Nat.zero_add]
  | cons first before ih =>
    rw [Stretch.size, Nat.add_assoc]
    exact .later ih

/-- What a form of the lexemes that keeps their sizes has at the offset. -/
theorem getElem?_encode (h : HasByte ls i l k) {f : Lexeme → List Char}
    (hf : ∀ l, byteLength (f l) = l.size) :
    (encode (ls.flatMap f))[i]? = (encode (f l))[k]? := by
  induction h with
  | @here l ls k hk =>
    have hlength : k < (encode (f l)).length := by rwa [length_encode, hf]
    rw [List.flatMap_cons, encode_append, List.getElem?_append_left hlength]
  | @later first l ls i k _ ih =>
    have hlength : (encode (f first)).length = first.size := by rw [length_encode, hf]
    rw [List.flatMap_cons, encode_append, ← hlength,
      List.getElem?_append_right (Nat.le_add_right ..), Nat.add_sub_cancel_left, ih]

end HasByte

theorem exists_hasByte (h : i < Stretch.size ls) : ∃ l k, HasByte ls i l k := by
  induction ls generalizing i with
  | nil => cases h
  | cons first ls ih =>
    by_cases hi : i < first.size
    · exact ⟨first, i, .here hi⟩
    · obtain ⟨j, rfl⟩ := Nat.exists_eq_add_of_le (Nat.not_lt.1 hi)
      obtain ⟨l, k, hbyte⟩ := ih (Nat.lt_of_add_lt_add_left h)
      exact ⟨l, k, .later hbyte⟩

/-! ### Bytes of one lexeme -/

theorem encode_replicate {c : Char} (hc : Text.isAscii c = true) (n : Nat) :
    encode (List.replicate n c) = List.replicate n (UInt8.ofNat c.toNat) := by
  induction n with
  | zero => rfl
  | succ n ih =>
    rw [List.replicate_succ, encode_cons, ih, Text.encodeChar_of_isAscii hc]
    rfl

theorem encode_blankOut (c : Char) :
    encode (blankOut c) = (String.utf8EncodeChar c).map blankByte := by
  unfold blankOut
  split
  · rename_i hc
    rw [hc]
    decide
  · rename_i hc
    -- only a line break has the byte of a line break
    have hblank : ∀ b ∈ String.utf8EncodeChar c, blankByte b = UInt8.ofNat ' '.toNat := by
      intro b hb
      refine if_neg fun hbreak => hc ?_
      have hbyte := Text.byteIs_of_mem (.eq (c := '\n') (by decide)) hb
      rw [hbreak] at hbyte
      exact eq_of_beq (hbyte.symm.trans (by decide))
    rw [encode_replicate (by decide), eq_comm, List.eq_replicate_iff, List.length_map,
      String.length_utf8EncodeChar]
    refine ⟨rfl, fun b hb => ?_⟩
    obtain ⟨b, hmem, rfl⟩ := List.mem_map.1 hb
    exact hblank b hmem

theorem encode_blanks (cs : List Char) :
    encode (cs.flatMap blankOut) = (encode cs).map blankByte := by
  induction cs with
  | nil => rfl
  | cons c cs ih =>
    rw [List.flatMap_cons, encode_append, encode_cons, List.map_append, ih, encode_blankOut]

theorem encode_filling (cs : List Char) :
    encode (cs.flatMap fillIn) = List.replicate (byteLength cs) (UInt8.ofNat '_'.toNat) := by
  induction cs with
  | nil => rfl
  | cons c cs ih =>
    rw [List.flatMap_cons, encode_append, ih, fillIn, encode_replicate (by decide),
      List.replicate_append_replicate]
    rfl

theorem getElem?_encode_literal (body : List Char) (k : Nat) :
    (encode (literal body).masked)[k]? =
      (encode (literal body).written)[k]?.map ((literal body).maskByte k) := by
  have hquote : String.utf8EncodeChar '"' = [UInt8.ofNat '"'.toNat] := by decide
  have hsize : (literal body).size = byteLength body + 2 := by
    have hone : '"'.utf8Size = 1 := rfl
    simp [size, written, hone]
    omega
  have hmasked : encode (literal body).masked = UInt8.ofNat '"'.toNat ::
      (List.replicate (byteLength body) (UInt8.ofNat '_'.toNat) ++ [UInt8.ofNat '"'.toNat]) := by
    simp [masked, hquote, encode_filling]
  have hwritten : encode (literal body).written =
      UInt8.ofNat '"'.toNat :: (encode body ++ [UInt8.ofNat '"'.toNat]) := by
    simp [written, hquote]
  rw [hmasked, hwritten]
  cases k with
  | zero => simp [maskByte]
  | succ j =>
    rw [List.getElem?_cons_succ, List.getElem?_cons_succ]
    by_cases hj : j < byteLength body
    · have hinner : j < (encode body).length := by rwa [length_encode]
      rw [List.getElem?_append_left (by simpa using hj), List.getElem?_append_left hinner,
        List.getElem?_replicate_of_lt hj, List.getElem?_eq_getElem hinner, Option.map_some, maskByte,
        if_neg (by omega)]
    · rw [List.getElem?_append_right (by simpa using hj),
        List.getElem?_append_right (by simpa using hj), List.length_replicate, length_encode]
      by_cases hlast : j = byteLength body
      · simp [hlast, maskByte, hsize]
      · obtain ⟨n, hn⟩ := Nat.exists_eq_succ_of_ne_zero (n := j - byteLength body) (by omega)
        rw [hn]
        rfl

/-- A byte of the mask of a lexeme. -/
theorem getElem?_encode_masked (l : Lexeme) (k : Nat) :
    (encode l.masked)[k]? = (encode l.written)[k]?.map (l.maskByte k) := by
  have hcomment (text : List Char) : (encode (text.flatMap blankOut))[k]? =
      (encode text)[k]?.map blankByte := by rw [encode_blanks, List.getElem?_map]
  cases l with
  | plain c => exact (congrFun Option.map_id _).symm
  | lineComment => exact hcomment _
  | blockComment => exact hcomment _
  | literal body => exact getElem?_encode_literal body k

end Lexeme

namespace Mask

open Lexeme (HasByte LexedAs)
open Stretch (Part size marks)

variable {all ls after : List Lexeme} {s : Stretch} {m : Mask} {offset start stop : Nat}

/-! ### Ranges of literals -/

theorem mem_literalRanges {range : Nat × Nat} : range ∈ literalRanges offset ls ↔
    ∃ before body after, ls = before ++ .literal body :: after ∧
      range = (offset + size before, offset + size before + (Lexeme.literal body).size) := by
  constructor
  · intro h
    induction ls generalizing offset with
    | nil => cases h
    | cons l ls ih =>
      have hlater (h : range ∈ literalRanges (offset + l.size) ls) :
          ∃ before body after, l :: ls = before ++ .literal body :: after ∧
            range = (offset + size before, offset + size before + (Lexeme.literal body).size) := by
        obtain ⟨before, body, after, rfl, hrange⟩ := ih h
        refine ⟨l :: before, body, after, rfl, ?_⟩
        rwa [size, ← Nat.add_assoc]
      rcases literal_or l with ⟨body, rfl⟩ | ⟨hl, -⟩
      · rw [literalRanges_cons_literal] at h
        rcases List.mem_cons.1 h with rfl | h
        · exact ⟨[], body, ls, rfl, rfl⟩
        · exact hlater h
      · exact hlater (literalRanges_cons_of_ne hl offset ls ▸ h)
  · rintro ⟨before, body, after, rfl, rfl⟩
    rw [literalRanges_append, literalRanges_cons_literal]
    exact List.mem_append_right _ (List.mem_cons_self ..)

/-- The literals come one after another. -/
theorem pairwise_literalRanges (offset : Nat) (ls : List Lexeme) :
    (literalRanges offset ls).Pairwise fun range later => range.2 ≤ later.1 := by
  induction ls generalizing offset with
  | nil => exact .nil
  | cons l ls ih =>
    rcases literal_or l with ⟨body, rfl⟩ | ⟨hl, -⟩
    · rw [literalRanges_cons_literal]
      exact .cons (fun later h => (bounds_of_mem_literalRanges h).1) (ih _)
    · rw [literalRanges_cons_of_ne hl]
      exact ih _

/-- An offset lies in the range of a literal exactly if its byte is one of a literal. -/
theorem exists_range_iff {l : Lexeme} {i k : Nat} (h : HasByte ls i l k) :
    (∃ range ∈ literalRanges 0 ls, range.1 ≤ i ∧ i < range.2) ↔ ∃ body, l = .literal body := by
  constructor
  · rintro ⟨range, hrange, hstart, hstop⟩
    obtain ⟨before, body, after, rfl, rfl⟩ := mem_literalRanges.1 hrange
    rw [Nat.zero_add] at hstart hstop
    obtain ⟨j, rfl⟩ := Nat.exists_eq_add_of_le hstart
    have hliteral : HasByte (.literal body :: after) j (.literal body) j := .here (by omega)
    exact ⟨body, ((hliteral.append_left before).unique h).1⟩
  · rintro ⟨body, rfl⟩
    have hk := h.lt_size.2
    obtain ⟨before, after, hls, rfl⟩ := h.split
    refine ⟨_, mem_literalRanges.2 ⟨before, body, after, hls, rfl⟩, ?_⟩
    dsimp only
    omega

/-! ### What bindings are cut out at -/

/-- Blocks are looked for one after another, from an offset on: one begins behind a brace and
ends at the next closing brace. -/
inductive Block (m : Mask) : Nat → Nat → Nat → Prop
  | here {start opened closed : Nat} (hopen : find? m '\x7b' start = pure (some opened))
      (hclose : find? m '\x7d' opened = pure (some closed)) : Block m start (opened + 1) closed
  | later {start opened closed first last : Nat}
      (hopen : find? m '\x7b' start = pure (some opened))
      (hclose : find? m '\x7d' opened = pure (some closed)) (h : Block m (closed + 1) first last) :
      Block m start first last

/-- The ranges that end at some offsets, each behind the end of the one before. -/
def linesTo (start : Nat) : List Nat → List (Nat × Nat)
  | [] => []
  | stop :: rest => (start, stop) :: linesTo (stop + 1) rest

/-- The lines of a block end at its semicolons and at its end. -/
def Line (m : Mask) (first last : Nat) (line : Nat × Nat) : Prop :=
  ∃ body, ByteReader.cutOut m.text first last = pure body ∧
    line ∈ linesTo first (offsetsOf ';' first body ++ [last])

/-- The key of a line reaches up to its first equals sign, the value from there on. -/
inductive Field (m : Mask) (line : Nat × Nat) : Nat → Nat → Prop
  | key {first last equals start stop : Nat} (hline : trimRange m line.1 line.2 = pure (first, last))
      (hequals : find? m '=' first = pure (some equals)) (hlast : equals < last)
      (hkey : trimRange m first equals = pure (start, stop)) : Field m line start stop
  | value {first last equals start stop : Nat}
      (hline : trimRange m line.1 line.2 = pure (first, last))
      (hequals : find? m '=' first = pure (some equals)) (hlast : equals < last)
      (hvalue : trimRange m (equals + 1) last = pure (start, stop)) : Field m line start stop

/-- A range that a key or a value of a binding is cut out at. -/
def CutsAt (m : Mask) (start stop : Nat) : Prop :=
  ∃ first last line, Block m 0 first last ∧ Line m first last line ∧ Field m line start stop

theorem pure_inj {α : Type} {a b : α} (h : (pure a : Checked α) = pure b) : a = b :=
  Except.ok.inj (Option.some.inj h)

/-- The block that two marks of the mask are found around. -/
theorem part_of_found {opened closed : Nat} (h : Part all s [])
    (hopen : find? (ofLexemes all) '\x7b' s.offset = pure (some opened))
    (hclose : find? (ofLexemes all) '\x7d' opened = pure (some closed)) :
    (∃ body after, Part all ⟨opened + 1, body⟩ after ∧ opened + 1 + size body = closed) ∧
      ∃ rest, Part all ⟨closed + 1, rest⟩ [] := by
  rw [find?_eq h (by decide), List.append_nil] at hopen
  obtain ⟨⟨before, inside⟩, hcut, rfl⟩ := Option.map_eq_some_iff.1 (pure_inj hopen)
  have hopened := (h.cut hcut).2
  rw [find?_closing hopened] at hclose
  obtain ⟨⟨body, rest⟩, hcut', rfl⟩ := Option.map_eq_some_iff.1 (pure_inj hclose)
  have hinside : Part all ⟨s.offset + size before + 1, inside⟩ [] :=
    hopened.tail (by decide) rfl
  obtain ⟨hbody, hclosed⟩ := hinside.cut hcut'
  exact ⟨⟨body, _, hbody, rfl⟩, rest, hclosed.tail (by decide) rfl⟩

theorem Block.part {first last : Nat} (h : Block (ofLexemes all) start first last)
    (hs : Part all s []) (hstart : s.offset = start) :
    ∃ body after, Part all ⟨first, body⟩ after ∧ first + size body = last := by
  induction h generalizing s with
  | here hopen hclose =>
    subst hstart
    exact (part_of_found hs hopen hclose).1
  | later hopen hclose _ ih =>
    subst hstart
    obtain ⟨rest, hrest⟩ := (part_of_found hs hopen hclose).2
    exact ih hrest rfl

theorem Line.part {line : Nat × Nat} (h : Line (ofLexemes all) s.offset s.stop line)
    (hs : Part all s after) :
    ∃ ls after, Part all ⟨line.1, ls⟩ after ∧ line.1 + size ls = line.2 := by
  obtain ⟨body, hbody, hline⟩ := h
  rw [cutOut_text hs] at hbody
  obtain rfl := pure_inj hbody
  clear hbody
  induction hn : s.lexemes.length using Nat.strongRecOn generalizing s with
  | ind n ih =>
    obtain ⟨offset, ls⟩ := s
    cases hcut : Stretch.cut ';' ls with
    | none =>
      rw [lineEnds_of_none hcut] at hline
      obtain rfl := List.mem_singleton.1 hline
      exact ⟨ls, after, hs, rfl⟩
    | some cutting =>
      obtain ⟨left, right⟩ := cutting
      obtain ⟨hleft, hmark⟩ := hs.cut hcut
      rw [lineEnds_of_cut hcut] at hline
      rcases List.mem_cons.1 hline with rfl | hline
      · exact ⟨left, _, hleft, rfl⟩
      · have hlength : right.length < n := by
          rw [← hn, Stretch.eq_of_cut hcut, List.length_append, List.length_cons]
          omega
        exact ih _ hlength (s := ⟨offset + size left + 1, right⟩) (hmark.tail (by decide) rfl) hline rfl

/-- The two sides of the first equals sign of a line. -/
theorem parts_of_equals {first last equals : Nat} (hs : Part all s after)
    (htrim : trimRange (ofLexemes all) s.offset s.stop = pure (first, last))
    (hequals : find? (ofLexemes all) '=' first = pure (some equals)) (hlast : equals < last) :
    (∃ left after, Part all ⟨first, left⟩ after ∧ first + size left = equals) ∧
      ∃ right after, Part all ⟨equals + 1, right⟩ after ∧ equals + 1 + size right = last := by
  obtain ⟨blanks, -, hline⟩ := hs.trim
  rw [trimRange_eq hs] at htrim
  obtain ⟨rfl, rfl⟩ := Prod.mk.inj (pure_inj htrim)
  obtain ⟨found?, hfind, hfilter⟩ := find?_within hline (c := '=') (by decide)
  obtain rfl := pure_inj (hfind.symm.trans hequals)
  rw [Option.filter_some, if_pos (decide_eq_true hlast)] at hfilter
  obtain ⟨⟨left, right⟩, hcut, rfl⟩ := Option.map_eq_some_iff.1 hfilter.symm
  obtain ⟨hleft, hmark⟩ := hline.cut hcut
  refine ⟨⟨left, _, hleft, rfl⟩, right, _, hmark.tail (by decide) rfl, ?_⟩
  rw [Stretch.stop, Stretch.eq_of_cut hcut, Stretch.size_append, size, Stretch.size_mark (by decide)]
  dsimp only
  omega

/-- What is left of some lexemes when blanks are trimmed. -/
theorem part_of_trimRange {first last : Nat} (hs : Part all ⟨first, ls⟩ after)
    (hlast : first + size ls = last)
    (htrim : trimRange (ofLexemes all) first last = pure (start, stop)) :
    ∃ ls after, Part all ⟨start, ls⟩ after ∧ start + size ls = stop := by
  subst hlast
  obtain ⟨blanks, -, htrimmed⟩ := hs.trim
  obtain ⟨rfl, rfl⟩ := Prod.mk.inj (pure_inj ((trimRange_eq hs).symm.trans htrim))
  exact ⟨_, _, htrimmed, rfl⟩

theorem Field.part {line : Nat × Nat} (h : Field (ofLexemes all) line start stop)
    (hs : Part all ⟨line.1, ls⟩ after) (hstop : line.1 + size ls = line.2) :
    ∃ ls after, Part all ⟨start, ls⟩ after ∧ start + size ls = stop := by
  cases h with
  | key hline hequals hlast hkey =>
    rw [← hstop] at hline
    obtain ⟨⟨left, more, hleft, hsize⟩, -⟩ := parts_of_equals hs hline hequals hlast
    exact part_of_trimRange hleft hsize hkey
  | value hline hequals hlast hvalue =>
    rw [← hstop] at hline
    obtain ⟨-, right, more, hright, hsize⟩ := parts_of_equals hs hline hequals hlast
    exact part_of_trimRange hright hsize hvalue

/-- Keys and values are cut out between lexemes. -/
theorem CutsAt.part (h : CutsAt (ofLexemes all) start stop) :
    ∃ ls after, Part all ⟨start, ls⟩ after ∧ start + size ls = stop := by
  obtain ⟨first, last, line, hblock, hline, hfield⟩ := h
  obtain ⟨body, more, hbody, rfl⟩ := hblock.part (Part.whole all) rfl
  obtain ⟨ls, after, hls, hsize⟩ := hline.part hbody
  exact hfield.part hls hsize

/-! ### What is put back -/

/-- A literal lies inside of a part or apart from it. -/
theorem inside_or_apart (h : Part all s after) {range : Nat × Nat}
    (hrange : range ∈ (ofLexemes all).literals) :
    s.offset ≤ range.1 ∧ range.2 ≤ s.stop ∨ range.2 ≤ s.offset ∨ s.stop ≤ range.1 := by
  obtain ⟨before, hsize, hliterals⟩ := literals_of_part h
  rw [hliterals] at hrange
  rcases List.mem_append.1 hrange with hbefore | hrange
  · have hbounds := bounds_of_mem_literalRanges hbefore
    omega
  rcases List.mem_append.1 hrange with hown | hafter
  · have hbounds := bounds_of_mem_literalRanges hown
    exact .inl ⟨hbounds.1, hbounds.2.2⟩
  · exact .inr (.inr (bounds_of_mem_literalRanges hafter).1)

theorem byteLength_restored (l : Lexeme) : byteLength l.restored = l.size := by
  rcases literal_or l with ⟨body, rfl⟩ | ⟨-, hl⟩
  · rfl
  · rw [hl, Lexeme.byteLength_masked]

/-- A text put back for a range: the bytes of the source in literals, those of the mask elsewhere. -/
structure Restores (m : Mask) (start stop : Nat) (text : List Char) : Prop where
  length : start + byteLength text = stop
  literal : ∀ range ∈ m.literals, ∀ i, start + i < stop → range.1 ≤ start + i → start + i < range.2 →
    (encode text)[i]? = (encode m.source)[start + i]?
  other : ∀ i, start + i < stop → (∀ range ∈ m.literals, start + i < range.1 ∨ range.2 ≤ start + i) →
    (encode text)[i]? = (encode m.text)[start + i]?

/-- A byte of a part is a byte of the whole. -/
theorem hasByte_of_part (h : Part all s after) {l : Lexeme} {i k : Nat}
    (hbyte : HasByte s.lexemes i l k) : HasByte all (s.offset + i) l k := by
  obtain ⟨before, rfl, hsize⟩ := h.split
  rw [← hsize]
  exact (hbyte.append_right after).append_left before

theorem restores (h : Part all s after) :
    Restores (ofLexemes all) s.offset s.stop (s.lexemes.flatMap Lexeme.restored) := by
  refine ⟨by rw [Stretch.byteLength_flatMap byteLength_restored, Stretch.stop], fun range hrange i hi hstart hstop => ?_,
    fun i hi hapart => ?_⟩
  all_goals
    obtain ⟨l, k, hbyte⟩ := Lexeme.exists_hasByte (Nat.lt_of_add_lt_add_left hi)
    have hall := hasByte_of_part h hbyte
    rw [hbyte.getElem?_encode byteLength_restored]
  · obtain ⟨body, rfl⟩ := (exists_range_iff hall).1 ⟨range, hrange, hstart, hstop⟩
    exact (hall.getElem?_encode fun _ => rfl).symm
  · rcases literal_or l with ⟨body, rfl⟩ | ⟨-, hl⟩
    · obtain ⟨range, hrange, hstart, hstop⟩ := (exists_range_iff hall).2 ⟨body, rfl⟩
      rcases hapart range hrange with hlt | hle
      · exact absurd hlt (Nat.not_lt.2 hstart)
      · exact absurd hstop (Nat.not_lt.2 hle)
    · rw [hl]
      exact (hall.getElem?_encode Lexeme.byteLength_masked).symm

/-! ### The mask of a text -/

/-- A mask of a text that these are the lexemes of. -/
structure Exact (source : List Char) (ls : List Lexeme) (m : Mask) : Prop where
  reads : m.source = source
  length : byteLength m.text = byteLength source
  /-- Each byte is the byte of a lexeme, and is masked as this tells. -/
  covered : ∀ i, i < byteLength source → ∃ l k, HasByte ls i l k
  masked : ∀ i l k, HasByte ls i l k → (encode m.text)[i]? = (encode source)[i]?.map (l.maskByte k)
  /-- No mark is left of comments and literals. -/
  unmarked : ∀ i l k, HasByte ls i l k → (∀ c, l ≠ .plain c) →
    ∀ c ∈ marks, (encode m.text)[i]? ≠ some (UInt8.ofNat c.toNat)
  literals : ∀ range, range ∈ m.literals ↔
    ∃ before body after, ls = before ++ .literal body :: after ∧
      range.1 = byteLength (before.flatMap Lexeme.written) ∧
      range.2 = range.1 + byteLength (Lexeme.literal body).written
  inOrder : m.literals.Pairwise fun range later => range.2 ≤ later.1
  boundaries : ∀ range ∈ m.literals, range.1 < range.2 ∧
    Text.IsBoundary source range.1 ∧ Text.IsBoundary source range.2 ∧
    Text.IsBoundary m.text range.1 ∧ Text.IsBoundary m.text range.2
  /-- Keys and values cut through no literal. -/
  uncut : ∀ start stop, m.CutsAt start stop → ∀ range ∈ m.literals,
    start ≤ range.1 ∧ range.2 ≤ stop ∨ range.2 ≤ start ∨ stop ≤ range.1
  restored : ∀ start stop, m.CutsAt start stop → ∃ text, m.Restores start stop text ∧
    m.restore start stop = pure text ∧
    m.value start stop = pure (if (start, stop) ∈ m.literals then .quoted (String.ofList text)
      else .bare (String.ofList text))

theorem mem_literals_iff (range : Nat × Nat) : range ∈ (ofLexemes all).literals ↔
    ∃ before body after, all = before ++ .literal body :: after ∧
      range.1 = byteLength (before.flatMap Lexeme.written) ∧
      range.2 = range.1 + byteLength (Lexeme.literal body).written := by
  obtain ⟨start, stop⟩ := range
  constructor
  · intro h
    obtain ⟨before, body, after, hall, heq⟩ := mem_literalRanges.1 h
    obtain ⟨rfl, rfl⟩ := Prod.mk.inj heq
    exact ⟨before, body, after, hall, by rw [Stretch.byteLength_written, Nat.zero_add], rfl⟩
  · rintro ⟨before, body, after, hall, hstart, hstop⟩
    dsimp only at hstart hstop
    refine mem_literalRanges.2 ⟨before, body, after, hall, ?_⟩
    rw [hstop, hstart, Stretch.byteLength_written, Nat.zero_add]
    rfl

theorem isBoundary_append {f : Lexeme → List Char} (hf : ∀ l, byteLength (f l) = l.size)
    (before after : List Lexeme) :
    Text.IsBoundary ((before ++ after).flatMap f) (byteLength (before.flatMap Lexeme.written)) :=
  ⟨before.flatMap f, after.flatMap f, List.flatMap_append,
    by rw [Stretch.byteLength_flatMap hf, Stretch.byteLength_written]⟩

theorem isBoundary_literals {range : Nat × Nat} (h : range ∈ (ofLexemes all).literals)
    {f : Lexeme → List Char} (hf : ∀ l, byteLength (f l) = l.size) :
    Text.IsBoundary (all.flatMap f) range.1 ∧ Text.IsBoundary (all.flatMap f) range.2 := by
  obtain ⟨before, body, after, rfl, hstart, hstop⟩ := (mem_literals_iff range).1 h
  have hend : byteLength ((before ++ [Lexeme.literal body]).flatMap Lexeme.written) = range.2 := by
    rw [List.flatMap_append, Text.byteLength_append, List.flatMap_singleton, ← hstart, hstop]
  refine ⟨hstart ▸ isBoundary_append hf before _, ?_⟩
  rw [List.append_cons, ← hend]
  exact isBoundary_append hf (before ++ [Lexeme.literal body]) after

theorem unmarked_of_hasByte {l : Lexeme} {i k : Nat} (h : HasByte all i l k)
    (hl : ∀ c, l ≠ .plain c) {c : Char} (hc : c ∈ marks) :
    (encode (ofLexemes all).text)[i]? ≠ some (UInt8.ofNat c.toNat) := by
  have hascii := Stretch.isAscii_mark hc
  have hbyte : (encode (ofLexemes all).text)[i]? = (encode l.masked)[k]? :=
    h.getElem?_encode Lexeme.byteLength_masked
  rw [hbyte]
  intro hmark
  obtain ⟨x, hx, hmem⟩ := List.mem_flatMap.1 (List.mem_of_getElem? hmark)
  have hsame := (Text.byteIs_of_mem (.eq hascii) hmem).symm.trans (Text.byteIs_ascii hascii _)
  rw [beq_self_eq_true] at hsame
  exact Lexeme.not_mem_masked hc (hl c) (eq_of_beq hsame ▸ hx)

theorem restored_of_cutsAt (h : CutsAt (ofLexemes all) start stop) :
    ∃ text, Restores (ofLexemes all) start stop text ∧
      restore (ofLexemes all) start stop = pure text ∧
      value (ofLexemes all) start stop =
        pure (if (start, stop) ∈ (ofLexemes all).literals then .quoted (String.ofList text)
          else .bare (String.ofList text)) := by
  obtain ⟨ls, after, hpart, rfl⟩ := h.part
  refine ⟨_, restores hpart, restore_eq hpart, (value_eq hpart).trans (congrArg pure ?_)⟩
  have hliteral := contains_literals hpart
  rw [List.contains_iff_mem] at hliteral
  split
  · rename_i hmem
    obtain ⟨body, rfl⟩ := hliteral.1 hmem
    rfl
  · rename_i hmem
    exact Stretch.writtenValue_of_ne fun body hbody => hmem (hliteral.2 ⟨body, hbody⟩)

theorem exact_ofLexemes (all : List Lexeme) :
    Exact (all.flatMap Lexeme.written) all (ofLexemes all) where
  reads := rfl
  length := by rw [ofLexemes, Stretch.byteLength_masked, Stretch.byteLength_written]
  covered := fun i hi => Lexeme.exists_hasByte (by rwa [Stretch.byteLength_written] at hi)
  masked := fun i l k h => by
    have hmasked : (encode (ofLexemes all).text)[i]? = (encode l.masked)[k]? :=
      h.getElem?_encode Lexeme.byteLength_masked
    rw [hmasked, h.getElem?_encode fun _ => rfl]
    exact l.getElem?_encode_masked k
  unmarked := fun i l k h hl c hc => unmarked_of_hasByte h hl hc
  literals := mem_literals_iff
  inOrder := pairwise_literalRanges 0 all
  boundaries := fun range h => by
    obtain ⟨hstart, hstop⟩ := isBoundary_literals h fun _ => rfl
    obtain ⟨hstart', hstop'⟩ := isBoundary_literals h Lexeme.byteLength_masked
    exact ⟨(bounds_of_mem_literalRanges h).2.1, hstart, hstop, hstart', hstop'⟩
  uncut := fun start stop h range hrange => by
    obtain ⟨ls, after, hpart, rfl⟩ := h.part
    exact inside_or_apart hpart hrange
  restored := fun start stop => restored_of_cutsAt

theorem run_parse (source : List Char) : (parse source).run = some (Declarations.read source) := by
  rcases (ByteReader.agrees_parse source).cases with
    ⟨fault, hread, hparse, -⟩ | ⟨found, _, hread, hparse, rfl⟩
  · rw [hread, hparse]
    rfl
  · rw [hread, hparse]
    rfl

/-- Masking is exact: the pass ends at the first comment or literal that is not closed, or makes a
mask that is told by the lexemes of the text, and declarations are read by that mask. -/
theorem masking_exact (source : List Char) :
    (parse source).run = some (Declarations.read source) ∧
    (∃ ls stop, LexedAs source ls stop) ∧
    ∀ ls stop, LexedAs source ls stop →
      match stop with
      | some kind => ofSource source = .error ⟨kind, byteLength (ls.flatMap Lexeme.written)⟩
      | none => ∃ m, ofSource source = .ok m ∧ m.Exact source ls := by
  refine ⟨run_parse source, Lexeme.exists_lexedAs source, fun ls stop h => ?_⟩
  have hpass : ofSource source = passed 0 ⟨source, [], []⟩ ls stop := pass_eq h
  cases stop with
  | some kind =>
    rw [hpass, passed, Nat.zero_add, Stretch.byteLength_written]
  | none =>
    obtain ⟨rest, hsource, hrest⟩ := h.written_eq
    rw [hrest rfl, List.append_nil] at hsource
    refine ⟨ofLexemes ls, ?_, hsource ▸ exact_ofLexemes ls⟩
    rw [hpass, hsource]
    rfl

/-- A literal with marks, a quote behind a backslash and a character of two bytes, and a comment of
two lines with a brace in it. -/
theorem masking_exact_markedText :
    LexedAs "k=\"é;\\\"\"/*\n\x7d*/".toList
        [.plain 'k', .plain '=', .literal ['é', ';', '\\', '"'], .blockComment ['\n', '\x7d']] none ∧
      ∃ m, ofSource "k=\"é;\\\"\"/*\n\x7d*/".toList = .ok m ∧
        m.Exact "k=\"é;\\\"\"/*\n\x7d*/".toList
          [.plain 'k', .plain '=', .literal ['é', ';', '\\', '"'], .blockComment ['\n', '\x7d']] := by
  have hlex : LexedAs "k=\"é;\\\"\"/*\n\x7d*/".toList
      [.plain 'k', .plain '=', .literal ['é', ';', '\\', '"'], .blockComment ['\n', '\x7d']] none :=
    Lexeme.lexedAs_of_lex (by decide +kernel)
  obtain ⟨-, -, hmask⟩ := masking_exact "k=\"é;\\\"\"/*\n\x7d*/".toList
  exact ⟨hlex, hmask _ none hlex⟩

end Mask

end PageEngine
