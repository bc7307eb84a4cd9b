import PageEngine.Bytes.Declarations
import PageEngine.Proofs.Bytes.Mask

/-! Declarations read by bytes. With the mask of its lexemes, a text is cut only between lexemes,
and what is found are the declarations that a reader of lexemes finds. -/

namespace PageEngine

open ByteReader (cutOut isAt)

namespace Mask

/-- The ranges of the literals among lexemes that begin at an offset. -/
def literalRanges (offset : Nat) : List Lexeme → List (Nat × Nat)
  | [] => []
  | l :: rest =>
    let later := literalRanges (offset + l.size) rest
    match l with
    | .literal _ => (offset, offset + l.size) :: later
    | _ => later

def ofLexemes (lexemes : List Lexeme) : Mask :=
  ⟨lexemes.flatMap Lexeme.written, lexemes.flatMap Lexeme.masked, literalRanges 0 lexemes⟩

variable {all before after ls : List Lexeme} {s : Stretch} {c : Char}

open Stretch (size Part marks cut)

/-! ### Cuts -/

theorem cutOut_text (h : Part all s after) :
    cutOut (ofLexemes all).text s.offset s.stop = pure (s.lexemes.flatMap Lexeme.masked) := by
  have hcut := (h.stands Lexeme.byteLength_masked).cutOut_eq List.flatMap_append
  rwa [Stretch.byteLength_masked] at hcut

theorem cutOut_source (h : Part all s after) :
    cutOut (ofLexemes all).source s.offset s.stop = pure (s.lexemes.flatMap Lexeme.written) := by
  have hcut := (h.stands fun _ => rfl).cutOut_eq List.flatMap_append
  rwa [Stretch.byteLength_written] at hcut

/-! ### Marks -/

theorem findIdx?_masked (hc : c ∈ marks) (ls : List Lexeme) :
    (Text.encode (ls.flatMap Lexeme.masked)).findIdx? (Text.byteIs (· == c)) =
      (cut c ls).map fun found => size found.1 := by
  have hascii := Stretch.isAscii_mark hc
  induction ls with
  | nil => rfl
  | cons l ls ih =>
    rw [List.flatMap_cons, Text.encode_append, List.findIdx?_append, ih, Text.length_encode,
      Lexeme.byteLength_masked, cut]
    by_cases hl : l = .plain c
    · subst hl
      have hbyte : Text.byteIs (· == c) (UInt8.ofNat c.toNat) = true :=
        (Text.byteIs_ascii hascii _).trans (beq_self_eq_true c)
      have hencode : Text.encode (Lexeme.plain c).masked = [UInt8.ofNat c.toNat] := by
        rw [Lexeme.masked, Text.encode_cons, Text.encodeChar_of_isAscii hascii]
        rfl
      rw [if_pos rfl, hencode, List.findIdx?_cons, hbyte, if_pos rfl]
      rfl
    · have hnone : (Text.encode l.masked).findIdx? (Text.byteIs (· == c)) = none := by
        rw [List.findIdx?_eq_none_iff]
        intro b hb
        obtain ⟨x, hx, hb⟩ := List.mem_flatMap.1 hb
        have hne : x ≠ c := fun heq => Lexeme.not_mem_masked hc hl (heq ▸ hx)
        exact (Text.byteIs_of_mem (.eq hascii) hb).trans (beq_eq_false_iff_ne.2 hne)
      rw [if_neg hl, hnone, Option.none_or, Option.map_map, Option.map_map]
      congr 1
      funext found
      exact Nat.add_comm ..

theorem find?_eq (h : Part all s after) (hc : c ∈ marks) :
    find? (ofLexemes all) c s.offset =
      pure ((cut c (s.lexemes ++ after)).map fun found => s.offset + size found.1) := by
  rw [find?]
  have hbytes : ByteReader.bytesFrom (ofLexemes all).text s.offset =
      pure (Text.encode ((s.lexemes ++ after).flatMap Lexeme.masked)) :=
    (h.stands Lexeme.byteLength_masked).bytesFrom_eq
  rw [hbytes, pure_bind, findIdx?_masked hc, Option.map_map]
  rfl

theorem isAt_mark (h : Part all s after) (hc : c ∈ marks) :
    isAt (ofLexemes all).text (· == c) s.offset =
      (s.lexemes ++ after).head?.any (· == .plain c) := by
  have hat : isAt (ofLexemes all).text (· == c) s.offset =
      ((s.lexemes ++ after).flatMap Lexeme.masked).head?.any (· == c) :=
    (h.stands Lexeme.byteLength_masked).isAt_eq (.eq (Stretch.isAscii_mark hc))
  rw [hat]
  cases s.lexemes ++ after with
  | nil => rfl
  | cons l ls =>
    by_cases hl : l = .plain c
    · subst hl
      simp [Lexeme.masked]
    · have hne : l.masked ≠ [] := fun hnil => by
        have hsize := Lexeme.byteLength_masked l
        rw [hnil] at hsize
        exact Nat.ne_of_lt l.size_pos hsize
      obtain ⟨x, xs, hx⟩ := List.exists_cons_of_ne_nil hne
      have hmem : x ≠ c := fun heq =>
        Lexeme.not_mem_masked hc hl (by rw [hx, heq]; exact List.mem_cons_self ..)
      rw [List.flatMap_cons, hx, List.cons_append, List.head?_cons, List.head?_cons,
        Option.any_some, Option.any_some, beq_eq_false_iff_ne.2 hmem, beq_eq_false_iff_ne.2 hl]

/-! ### Blanks -/

theorem trimRange_eq (h : Part all s after) :
    trimRange (ofLexemes all) s.offset s.stop = pure (s.trim.offset, s.trim.stop) := by
  rw [trimRange, cutOut_text h, pure_bind]
  dsimp only
  rcases Stretch.blank_or_tight s.lexemes with hblank |
    ⟨lead, body, trail, hs, hlead, htrail, hbody⟩
  · have hdrop := Stretch.dropWhile_blank hblank []
    rw [List.append_nil] at hdrop
    rw [hdrop, List.dropWhile_nil, Text.byteLength_nil, if_pos (Nat.sub_zero _),
      Stretch.trim_blank hblank]
    rfl
  · have hdrop : (s.lexemes.flatMap Lexeme.masked).dropWhile Text.isBlank =
        (body ++ trail).flatMap Lexeme.masked := by
      rw [hs, List.flatMap_append, Stretch.dropWhile_blank hlead, List.flatMap_append,
        Stretch.dropWhile_tight hbody]
    have hend : Text.trimEnd (s.lexemes.flatMap Lexeme.masked) =
        (lead ++ body).flatMap Lexeme.masked := by
      rw [hs, ← List.append_assoc, List.flatMap_append, Stretch.trimEnd_blank htrail,
        List.flatMap_append, Stretch.trimEnd_tight hbody]
    have hsize : size s.lexemes = size lead + (size body + size trail) := by
      rw [hs, Stretch.size_append, Stretch.size_append]
    have hpos := Stretch.size_pos hbody.ne_nil
    rw [hdrop, hend, Stretch.byteLength_masked, Stretch.byteLength_masked,
      Stretch.byteLength_masked, Stretch.size_append, Stretch.size_append,
      Stretch.trim_tight hs hbody hlead htrail, if_neg (by omega), Stretch.stop, Stretch.stop, hsize]
    dsimp only
    congr 2 <;> omega

theorem length_trim_le (s : Stretch) : s.trim.lexemes.length ≤ s.lexemes.length := by
  rcases Stretch.blank_or_tight s.lexemes with hblank |
    ⟨lead, body, trail, hs, hlead, htrail, hbody⟩
  · rw [Stretch.trim_blank hblank]
    exact Nat.zero_le _
  · rw [Stretch.trim_tight hs hbody hlead htrail, hs]
    simp only [List.length_append]
    omega

/-- A header that no semicolon follows is trimmed alike. -/
theorem trimHeader_eq (h : Part all s after) (hafter : ∀ l ∈ after.head?, l ≠ .plain ';') :
    trimHeader (ofLexemes all) s.offset s.stop =
        pure ((s.trimHeader.offset, s.trimHeader.stop),
          s.trimHeader.lexemes.flatMap Lexeme.masked) ∧
      ∃ more, Part all s.trimHeader more := by
  induction hn : s.lexemes.length using Nat.strongRecOn generalizing s after with
  | ind n ih =>
    obtain ⟨blanks, hblanks, hpart⟩ := h.trim
    have hnext : ∀ l ∈ (blanks ++ after).head?, l ≠ .plain ';' := by
      cases blanks with
      | nil => exact hafter
      | cons l blanks =>
        rintro _ ⟨⟩ rfl
        cases hblanks _ (List.mem_cons_self ..)
    rw [trimHeader.eq_def, trimRange_eq h, pure_bind]
    dsimp only
    rw [isAt_mark hpart (by decide)]
    cases hlexemes : s.trim.lexemes with
    | nil =>
      have hnone : ([] ++ (blanks ++ after)).head?.any (· == Lexeme.plain ';') = false := by
        rw [List.nil_append]
        cases hhead : (blanks ++ after).head? with
        | none => rfl
        | some l => exact beq_eq_false_iff_ne.2 (hnext l hhead)
      rw [hnone, if_neg Bool.false_ne_true,
        Stretch.trimHeader_of_ne fun rest => by rw [hlexemes]; exact (List.cons_ne_nil _ _).symm,
        cutOut_text hpart]
      exact ⟨rfl, _, hpart⟩
    | cons l rest =>
      rw [List.cons_append, List.head?_cons, Option.any_some]
      by_cases hl : l = .plain ';'
      · subst hl
        have htrim : s.trim = ⟨s.trim.offset, .plain ';' :: rest⟩ := by rw [← hlexemes]
        have hstop : s.trim.stop = (⟨s.trim.offset + 1, rest⟩ : Stretch).stop := by
          rw [Stretch.stop, hlexemes, size, Stretch.size_mark (by decide), Stretch.stop,
            Nat.add_assoc]
        have hlength : rest.length < n := by
          have hle := length_trim_le s
          rw [hlexemes, List.length_cons] at hle
          omega
        rw [if_pos (beq_self_eq_true _), hstop, Stretch.trimHeader_separator htrim]
        exact ih _ hlength (hpart.tail (by decide) hlexemes) hnext rfl
      · rw [beq_eq_false_iff_ne.2 hl, if_neg Bool.false_ne_true,
          Stretch.trimHeader_of_ne fun rest' => by
            rw [hlexemes]
            exact fun heq => hl (List.cons.inj heq).1,
          cutOut_text hpart]
        exact ⟨rfl, _, hpart⟩

/-! ### Literals -/

theorem literalRanges_cons_literal (offset : Nat) (body : List Char) (ls : List Lexeme) :
    literalRanges offset (.literal body :: ls) =
      (offset, offset + (Lexeme.literal body).size) ::
        literalRanges (offset + (Lexeme.literal body).size) ls := rfl

theorem literalRanges_cons_of_ne {l : Lexeme} (hl : ∀ body, l ≠ .literal body) (offset : Nat)
    (ls : List Lexeme) : literalRanges offset (l :: ls) = literalRanges (offset + l.size) ls := by
  cases l with
  | literal body => exact absurd rfl (hl body)
  | plain => rfl
  | lineComment => rfl
  | blockComment => rfl

theorem literal_or (l : Lexeme) :
    (∃ body, l = .literal body) ∨ ((∀ body, l ≠ .literal body) ∧ l.restored = l.masked) := by
  cases l with
  | literal body => exact .inl ⟨body, rfl⟩
  | plain => exact .inr ⟨fun _ => Lexeme.noConfusion, rfl⟩
  | lineComment => exact .inr ⟨fun _ => Lexeme.noConfusion, rfl⟩
  | blockComment => exact .inr ⟨fun _ => Lexeme.noConfusion, rfl⟩

theorem literalRanges_append (offset : Nat) (xs ys : List Lexeme) :
    literalRanges offset (xs ++ ys) =
      literalRanges offset xs ++ literalRanges (offset + size xs) ys := by
  induction xs generalizing offset with
  | nil => rfl
  | cons l xs ih =>
    rcases literal_or l with ⟨body, rfl⟩ | ⟨hl, -⟩
    · rw [List.cons_append, literalRanges_cons_literal, literalRanges_cons_literal, ih, size,
        List.cons_append, Nat.add_assoc]
    · rw [List.cons_append, literalRanges_cons_of_ne hl, literalRanges_cons_of_ne hl, ih, size,
        Nat.add_assoc]

/-- A literal takes some bytes within the lexemes it belongs to. -/
theorem bounds_of_mem_literalRanges {offset : Nat} {range : Nat × Nat}
    (h : range ∈ literalRanges offset ls) :
    offset ≤ range.1 ∧ range.1 < range.2 ∧ range.2 ≤ offset + size ls := by
  induction ls generalizing offset with
  | nil => cases h
  | cons l ls ih =>
    have hlater (h : range ∈ literalRanges (offset + l.size) ls) :
        offset ≤ range.1 ∧ range.1 < range.2 ∧ range.2 ≤ offset + size (l :: ls) := by
      obtain ⟨hstart, hlt, hstop⟩ := ih h
      rw [size]
      omega
    rcases literal_or l with ⟨body, rfl⟩ | ⟨hl, -⟩
    · rw [literalRanges_cons_literal] at h
      rcases List.mem_cons.1 h with rfl | h
      · have hpos := (Lexeme.literal body).size_pos
        rw [size]
        dsimp only
        omega
      · exact hlater h
    · exact hlater (literalRanges_cons_of_ne hl offset ls ▸ h)

/-- The literals before a part, its own, and those behind it. -/
theorem literals_of_part (h : Part all s after) : ∃ before, size before = s.offset ∧
    (ofLexemes all).literals = literalRanges 0 before ++
      (literalRanges s.offset s.lexemes ++ literalRanges s.stop after) := by
  obtain ⟨before, hall, hsize⟩ := h.split
  refine ⟨before, hsize, ?_⟩
  rw [ofLexemes, hall, literalRanges_append, literalRanges_append, Nat.zero_add, hsize]
  rfl

/-- The literals between the ends of a part are its own. -/
theorem filter_literals (h : Part all s after) :
    ((ofLexemes all).literals.filter fun range => s.offset ≤ range.1 && range.2 ≤ s.stop) =
      literalRanges s.offset s.lexemes := by
  obtain ⟨before, hsize, hliterals⟩ := literals_of_part h
  have hbefore : (literalRanges 0 before).filter
      (fun range => s.offset ≤ range.1 && range.2 ≤ s.stop) = [] := by
    rw [List.filter_eq_nil_iff]
    intro range hrange
    have hbounds := bounds_of_mem_literalRanges hrange
    simp only [Bool.and_eq_true, decide_eq_true_eq]
    omega
  have hafter : (literalRanges s.stop after).filter
      (fun range => s.offset ≤ range.1 && range.2 ≤ s.stop) = [] := by
    rw [List.filter_eq_nil_iff]
    intro range hrange
    have hbounds := bounds_of_mem_literalRanges hrange
    simp only [Bool.and_eq_true, decide_eq_true_eq]
    omega
  have hown : (literalRanges s.offset s.lexemes).filter
      (fun range => s.offset ≤ range.1 && range.2 ≤ s.stop) =
        literalRanges s.offset s.lexemes := by
    rw [List.filter_eq_self]
    intro range hrange
    have hbounds := bounds_of_mem_literalRanges hrange
    have hstop : s.stop = s.offset + size s.lexemes := rfl
    simp only [Bool.and_eq_true, decide_eq_true_eq]
    omega
  rw [hliterals, List.filter_append, List.filter_append, hbefore, hafter, hown, List.append_nil,
    List.nil_append]

/-- Between two literals the mask is the text that is restored. -/
theorem restoreFrom_eq {passed : List Lexeme} {start : Nat}
    (h : Part all ⟨start, passed⟩ (ls ++ after))
    (hpassed : passed.flatMap Lexeme.restored = passed.flatMap Lexeme.masked) :
    restoreFrom (ofLexemes all) start (start + size (passed ++ ls))
        (literalRanges (start + size passed) ls) =
      pure ((passed ++ ls).flatMap Lexeme.restored) := by
  induction ls generalizing passed start with
  | nil =>
    rw [List.append_nil, hpassed]
    exact cutOut_text h
  | cons l ls ih =>
    rcases literal_or l with ⟨body, rfl⟩ | ⟨hl, hrestored⟩
    · have hliteral : Part all ⟨start + size passed, [.literal body]⟩ (ls ++ after) := h.next
      have hrest : Part all ⟨start + size passed + (Lexeme.literal body).size, []⟩ (ls ++ after) :=
        hliteral.behind
      have htext : cutOut (ofLexemes all).text start (start + size passed) =
          pure (passed.flatMap Lexeme.masked) := cutOut_text h
      have hsource : cutOut (ofLexemes all).source (start + size passed)
          (start + size passed + (Lexeme.literal body).size) = pure (Lexeme.literal body).written :=
        (cutOut_source hliteral).trans (by rw [List.flatMap_singleton])
      have hstop : start + size (passed ++ .literal body :: ls) =
          start + size passed + (Lexeme.literal body).size + size ([] ++ ls) := by
        rw [Stretch.size_append, size, List.nil_append]
        omega
      have hlater := ih hrest rfl
      rw [size, Nat.add_zero] at hlater
      rw [literalRanges_cons_literal, restoreFrom, htext, pure_bind, hsource, pure_bind, hstop,
        hlater, pure_bind, List.nil_append, List.flatMap_append, List.flatMap_cons, hpassed]
      rfl
    · have hextended : Part all ⟨start, passed ++ [l]⟩ (ls ++ after) := h.extend
      have hsize : size (passed ++ [l]) = size passed + l.size := by
        rw [Stretch.size_append, Stretch.size_singleton]
      have hpassed' : (passed ++ [l]).flatMap Lexeme.restored =
          (passed ++ [l]).flatMap Lexeme.masked := by
        rw [List.flatMap_append, List.flatMap_append, hpassed, List.flatMap_singleton,
          List.flatMap_singleton, hrestored]
      have hlater := ih hextended hpassed'
      rw [← List.append_cons, hsize, ← Nat.add_assoc] at hlater
      rw [literalRanges_cons_of_ne hl]
      exact hlater

theorem restore_eq (h : Part all s after) :
    restore (ofLexemes all) s.offset s.stop = pure (s.lexemes.flatMap Lexeme.restored) := by
  obtain ⟨before, hall, hsize⟩ := h.split
  have hempty : Part all ⟨s.offset, []⟩ (s.lexemes ++ after) := ⟨before, hall, hsize⟩
  rw [restore, filter_literals h]
  exact restoreFrom_eq hempty rfl

theorem mem_literalRanges_iff {offset : Nat} :
    (offset, offset + size ls) ∈ literalRanges offset ls ↔ ∃ body, ls = [.literal body] := by
  constructor
  · intro h
    cases ls with
    | nil => cases h
    | cons l ls =>
      have hpos := l.size_pos
      have hlater : (offset, offset + size (l :: ls)) ∉ literalRanges (offset + l.size) ls :=
        fun hmem => by
          have hstart := (bounds_of_mem_literalRanges hmem).1
          dsimp only at hstart
          omega
      rcases literal_or l with ⟨body, rfl⟩ | ⟨hl, -⟩
      · rw [literalRanges_cons_literal] at h
        rcases List.mem_cons.1 h with heq | hmem
        · have hsize : size ls = 0 := by
            have hstop := congrArg Prod.snd heq
            rw [size] at hstop
            dsimp only at hstop
            omega
          refine ⟨body, ?_⟩
          by_contra hne
          have hls : ls ≠ [] := fun hnil => hne (by rw [hnil])
          exact Nat.ne_of_gt (Stretch.size_pos hls) hsize
        · exact absurd hmem hlater
      · exact absurd (literalRanges_cons_of_ne hl offset ls ▸ h) hlater
  · rintro ⟨body, rfl⟩
    exact List.mem_cons_self ..

/-- A value is one literal exactly if its range is that of a literal. -/
theorem contains_literals (h : Part all s after) :
    (ofLexemes all).literals.contains (s.offset, s.stop) = true ↔
      ∃ body, s.lexemes = [.literal body] := by
  have hmem : (s.offset, s.stop) ∈ (ofLexemes all).literals ↔
      (s.offset, s.stop) ∈ literalRanges s.offset s.lexemes := by
    rw [← filter_literals h, List.mem_filter]
    simp
  rw [List.contains_iff_mem, hmem]
  exact mem_literalRanges_iff

theorem value_eq (h : Part all s after) :
    value (ofLexemes all) s.offset s.stop = pure (Stretch.writtenValue s.lexemes) := by
  rw [value]
  by_cases hcontains : (ofLexemes all).literals.contains (s.offset, s.stop) = true
  · obtain ⟨body, hbody⟩ := (contains_literals h).1 hcontains
    rw [if_pos hcontains, cutOut_source h, pure_bind, hbody]
    rfl
  · have hne : ∀ body, s.lexemes ≠ [.literal body] := fun body hbody =>
      hcontains ((contains_literals h).2 ⟨body, hbody⟩)
    rw [if_neg hcontains, restore_eq h, pure_bind, Stretch.writtenValue_of_ne hne]

/-! ### Lines -/

/-- Up to the end of a part a mark is found where the part is cut. -/
theorem find?_within (h : Part all s after) (hc : c ∈ marks) :
    ∃ found?, find? (ofLexemes all) c s.offset = pure found? ∧
      found?.filter (· < s.stop) = (cut c s.lexemes).map fun found => s.offset + size found.1 := by
  refine ⟨_, find?_eq h hc, ?_⟩
  cases hcut : cut c s.lexemes with
  | none =>
    rw [Stretch.cut_append_of_none hcut, Option.map_map, Option.map_none, Option.filter_eq_none_iff]
    intro place hplace
    obtain ⟨found, -, rfl⟩ := Option.map_eq_some_iff.1 hplace
    simp only [Function.comp_apply, Stretch.size_append, Stretch.stop, decide_eq_true_eq]
    omega
  | some found =>
    obtain ⟨left, right⟩ := found
    have hsize : size s.lexemes = size left + ((Lexeme.plain c).size + size right) := by
      rw [Stretch.eq_of_cut hcut, Stretch.size_append, size]
    have hpos := (Lexeme.plain c).size_pos
    rw [Stretch.cut_append_of_cut hcut, Option.map_some, Option.map_some, Option.filter_some,
      if_pos]
    rw [decide_eq_true_eq, Stretch.stop]
    dsimp only
    omega

theorem isEmpty_iff_stop_le (s : Stretch) : s.lexemes.isEmpty = true ↔ s.stop ≤ s.offset := by
  rw [List.isEmpty_iff]
  constructor
  · intro hnil
    rw [Stretch.stop, hnil]
    exact Nat.le_refl _
  · intro hle
    by_contra hne
    have hpos := Stretch.size_pos hne
    rw [Stretch.stop] at hle
    omega

theorem agrees_binding? (h : Part all s after) :
    Agrees (ofLexemes all).source Eq s.binding? (binding? (ofLexemes all) s.offset s.stop) := by
  obtain ⟨blanks, -, hline⟩ := h.trim
  rw [Stretch.binding?_eq, binding?, trimRange_eq h, pure_bind]
  generalize s.trim = line at hline
  dsimp only
  by_cases hempty : line.lexemes.isEmpty = true
  · rw [if_pos hempty, if_pos ((isEmpty_iff_stop_le line).1 hempty)]
    exact .ok rfl
  rw [if_neg hempty, if_neg fun hle => hempty ((isEmpty_iff_stop_le line).2 hle)]
  obtain ⟨found?, hfind, hfilter⟩ := find?_within hline (c := '=') (by decide)
  rw [hfind, pure_bind, hfilter, Stretch.cutAt_eq_map]
  cases hcut : cut '=' line.lexemes with
  | none => exact .error hline.isBoundary
  | some found =>
    obtain ⟨left, right⟩ := found
    obtain ⟨hleft, hequals⟩ := hline.cut hcut
    have hright : Part all ⟨line.offset + size left + 1, right⟩ (blanks ++ after) :=
      hequals.tail (by decide) rfl
    have hstop : line.stop = (⟨line.offset + size left + 1, right⟩ : Stretch).stop := by
      rw [Stretch.stop, Stretch.stop, Stretch.eq_of_cut hcut, Stretch.size_append, size,
        Stretch.size_mark (by decide)]
      dsimp only
      omega
    have hkey : trimRange (ofLexemes all) line.offset (line.offset + size left) = _ :=
      trimRange_eq hleft
    have hvalue : trimRange (ofLexemes all) (line.offset + size left + 1) line.stop = _ :=
      hstop ▸ trimRange_eq hright
    obtain ⟨_, -, hkeyPart⟩ := hleft.trim
    obtain ⟨_, -, hvaluePart⟩ := hright.trim
    dsimp only [Option.map_some]
    rw [hkey, hvalue, pure_bind]
    generalize (⟨line.offset, left⟩ : Stretch).trim = key at hkeyPart
    generalize (⟨line.offset + size left + 1, right⟩ : Stretch).trim = value at hvaluePart
    dsimp only
    by_cases hkeyEmpty : key.lexemes.isEmpty = true
    · rw [if_pos hkeyEmpty, if_pos ((isEmpty_iff_stop_le key).1 hkeyEmpty)]
      exact .error hline.isBoundary
    rw [if_neg hkeyEmpty, if_neg fun hle => hkeyEmpty ((isEmpty_iff_stop_le key).2 hle), pure_bind]
    dsimp only
    by_cases hvalueEmpty : value.lexemes.isEmpty = true
    · rw [if_pos hvalueEmpty, if_pos ((isEmpty_iff_stop_le value).1 hvalueEmpty),
        Nat.add_sub_cancel]
      exact .error hequals.isBoundary
    · rw [if_neg hvalueEmpty, if_neg fun hle => hvalueEmpty ((isEmpty_iff_stop_le value).2 hle),
        value_eq hvaluePart, pure_bind, restore_eq hkeyPart, pure_bind]
      exact .ok rfl

/-! ### Blocks -/

theorem offsetsOf_append (offset : Nat) (xs ys : List Char) :
    offsetsOf c offset (xs ++ ys) =
      offsetsOf c offset xs ++ offsetsOf c (offset + Text.byteLength xs) ys := by
  induction xs generalizing offset with
  | nil => rfl
  | cons x xs ih =>
    rw [List.cons_append, offsetsOf, offsetsOf, ih, Text.byteLength_cons, Nat.add_assoc]
    split <;> rfl

theorem offsetsOf_of_not_mem {cs : List Char} (h : c ∉ cs) (offset : Nat) :
    offsetsOf c offset cs = [] := by
  induction cs generalizing offset with
  | nil => rfl
  | cons x cs ih =>
    obtain ⟨hx, hcs⟩ := not_or.1 (List.mem_cons.not.1 h)
    rw [offsetsOf, if_neg (Ne.symm hx), ih hcs]

theorem not_mem_masked_of_cut (hc : c ∈ marks) (h : Lexeme.plain c ∉ ls) :
    c ∉ ls.flatMap Lexeme.masked := fun hmem => by
  obtain ⟨l, hl, hmem⟩ := List.mem_flatMap.1 hmem
  exact Lexeme.not_mem_masked hc (fun heq => h (heq ▸ hl)) hmem

/-- A stretch without a semicolon is one line. -/
theorem lineEnds_of_none {offset : Nat} (h : cut ';' ls = none) :
    offsetsOf ';' offset (ls.flatMap Lexeme.masked) ++ [(⟨offset, ls⟩ : Stretch).stop] =
      [(⟨offset, ls⟩ : Stretch).stop] := by
  rw [offsetsOf_of_not_mem (not_mem_masked_of_cut (by decide) (Stretch.cut_eq_none_iff.1 h)),
    List.nil_append]

/-- The lines of a block end where it is cut, and at its end. -/
theorem lineEnds_of_cut {offset : Nat} {left right : List Lexeme}
    (h : cut ';' ls = some (left, right)) :
    offsetsOf ';' offset (ls.flatMap Lexeme.masked) ++ [(⟨offset, ls⟩ : Stretch).stop] =
      (offset + size left) ::
        (offsetsOf ';' (offset + size left + 1) (right.flatMap Lexeme.masked) ++
          [(⟨offset + size left + 1, right⟩ : Stretch).stop]) := by
  have hoffsets : offsetsOf ';' offset (ls.flatMap Lexeme.masked) =
      (offset + size left) :: offsetsOf ';' (offset + size left + 1)
        (right.flatMap Lexeme.masked) := by
    rw [Stretch.eq_of_cut h, List.flatMap_append, List.flatMap_cons, offsetsOf_append,
      offsetsOf_of_not_mem (not_mem_masked_of_cut (by decide) (Stretch.not_mem_of_cut h)),
      Stretch.byteLength_masked]
    rfl
  have hstop : (⟨offset, ls⟩ : Stretch).stop =
      (⟨offset + size left + 1, right⟩ : Stretch).stop := by
    rw [Stretch.stop, Stretch.stop, Stretch.eq_of_cut h, Stretch.size_append, size,
      Stretch.size_mark (by decide)]
    dsimp only
    omega
  rw [hoffsets, hstop, List.cons_append]

theorem agrees_bindingsOf (h : Part all s after) (found : Bindings) :
    Agrees (ofLexemes all).source Eq (Stretch.bindingsOf found (s.pieces ';'))
      (bindingsOf (ofLexemes all) found s.offset
        (offsetsOf ';' s.offset (s.lexemes.flatMap Lexeme.masked) ++ [s.stop])) := by
  induction hn : s.lexemes.length using Nat.strongRecOn generalizing s found with
  | ind n ih =>
    obtain ⟨offset, ls⟩ := s
    cases hcut : cut ';' ls with
    | none =>
      rw [Stretch.pieces_of_none hcut, lineEnds_of_none hcut, Stretch.bindingsOf_cons, bindingsOf]
      refine (agrees_binding? h).bind ?_
      rintro entry? _ rfl
      cases entry? with
      | none => exact .ok rfl
      | some entry => exact .ok rfl
    | some cutting =>
      obtain ⟨left, right⟩ := cutting
      obtain ⟨hleft, hmark⟩ := h.cut hcut
      have hright : Part all ⟨offset + size left + 1, right⟩ after :=
        hmark.tail (by decide) rfl
      have hlength : right.length < n := by
        rw [← hn, Stretch.eq_of_cut hcut, List.length_append, List.length_cons]
        omega
      rw [Stretch.pieces_of_cut hcut, lineEnds_of_cut hcut, Stretch.bindingsOf_cons, bindingsOf]
      refine (agrees_binding? hleft).bind ?_
      rintro entry? _ rfl
      cases entry? with
      | none => exact ih _ hlength hright found rfl
      | some entry => exact ih _ hlength hright _ rfl

theorem agrees_bindings (h : Part all s after) :
    Agrees (ofLexemes all).source Eq (Stretch.bindingsOf [] (s.pieces ';'))
      (bindings (ofLexemes all) s.offset s.stop) := by
  rw [bindings, cutOut_text h, pure_bind]
  exact agrees_bindingsOf h []

/-! ### Declarations -/

theorem isEmpty_masked (ls : List Lexeme) :
    (ls.flatMap Lexeme.masked).isEmpty = ls.isEmpty := by
  cases ls with
  | nil => rfl
  | cons l ls =>
    have hne : (l :: ls).flatMap Lexeme.masked ≠ [] := fun hnil => by
      have hsize := Stretch.byteLength_masked (l :: ls)
      rw [hnil, size] at hsize
      exact absurd hsize (Nat.ne_of_lt (Nat.add_pos_left l.size_pos _))
    rw [List.isEmpty_cons, List.isEmpty_eq_false_iff]
    exact hne

/-- A mask is trimmed as the lexemes that it stands for are. -/
theorem trim_masked (s : Stretch) :
    Text.trim (s.lexemes.flatMap Lexeme.masked) = s.trim.lexemes.flatMap Lexeme.masked := by
  rcases Stretch.blank_or_tight s.lexemes with hblank |
    ⟨lead, body, trail, hs, hlead, htrail, hbody⟩
  · have hdrop := Stretch.dropWhile_blank hblank []
    rw [List.append_nil] at hdrop
    rw [Stretch.trim_blank hblank, Text.trim, hdrop]
    rfl
  · rw [Stretch.trim_tight hs hbody hlead htrail, hs, List.flatMap_append, Text.trim,
      Stretch.dropWhile_blank hlead, List.flatMap_append, Stretch.dropWhile_tight hbody,
      Stretch.trimEnd_blank htrail]
    exact Stretch.trimEnd_tight hbody []

/-- A head is cut at its first colon. -/
theorem cutOut_header (hc : c ∈ marks) (left right : List Lexeme) :
    cutOut ((left ++ .plain c :: right).flatMap Lexeme.masked) 0 (size left) =
        pure (left.flatMap Lexeme.masked) ∧
      cutOut ((left ++ .plain c :: right).flatMap Lexeme.masked) (size left + 1)
        (Text.byteLength ((left ++ .plain c :: right).flatMap Lexeme.masked)) =
          pure (right.flatMap Lexeme.masked) := by
  generalize hall : left ++ .plain c :: right = all
  have hwhole : Part all ⟨0, left ++ .plain c :: right⟩ [] := hall ▸ Part.whole _
  have hcut : Part all ⟨0, left⟩ (.plain c :: right) :=
    ⟨[], hall.symm, rfl⟩
  have hright : Part all ⟨size left + 1, right⟩ [] := by
    have hnext : Part all ⟨size left, .plain c :: right⟩ [] :=
      ⟨left, by rw [List.append_nil, hall], rfl⟩
    exact hnext.tail hc rfl
  have hlength : Text.byteLength (all.flatMap Lexeme.masked) =
      (⟨size left + 1, right⟩ : Stretch).stop := by
    rw [Stretch.byteLength_masked, ← hall, Stretch.size_append, size, Stretch.size_mark hc,
      Stretch.stop, Nat.add_assoc]
  refine ⟨?_, hlength ▸ cutOut_text hright⟩
  have hleft := cutOut_text hcut
  rwa [Stretch.stop, Nat.zero_add] at hleft

theorem agrees_declaration {body : Stretch} {more : List Lexeme} (h : Part all s after)
    (hafter : ∀ l ∈ after.head?, l ≠ .plain ';') (hbody : Part all body more) :
    Agrees (ofLexemes all).source Eq (Stretch.declaration s.trimHeader body)
      (declaration (ofLexemes all) s.offset s.stop body.offset body.stop) := by
  obtain ⟨htrim, _, hheader⟩ := trimHeader_eq h hafter
  rw [declaration, htrim, pure_bind, Stretch.declaration]
  generalize s.trimHeader = header at hheader
  dsimp only
  rw [findIdx?_masked (by decide), Stretch.cutAt_eq_map]
  cases hcut : cut ':' header.lexemes with
  | none => exact .error hheader.isBoundary
  | some found =>
    obtain ⟨left, right⟩ := found
    obtain ⟨-, hcolon⟩ := hheader.cut hcut
    have hcolonMark : ':' ∈ marks := by decide
    obtain ⟨hname, htype⟩ := cutOut_header hcolonMark left right
    have hnameTrim := trim_masked ⟨header.offset, left⟩
    have htypeTrim := trim_masked ⟨header.offset + size left + 1, right⟩
    dsimp only [Option.map_some]
    rw [Stretch.eq_of_cut hcut, hname, pure_bind, hnameTrim, isEmpty_masked]
    split
    · exact .error hheader.isBoundary
    · rw [htype, pure_bind, htypeTrim, isEmpty_masked]
      split
      · rw [Nat.add_sub_cancel]
        exact .error hcolon.isBoundary
      · refine (agrees_bindings hbody).map ?_
        rintro found _ rfl
        rfl

/-- The mask ends with the last part. -/
theorem byteLength_text (h : Part all s []) : Text.byteLength (ofLexemes all).text = s.stop := by
  obtain ⟨before, hall, hsize⟩ := h.split
  rw [ofLexemes, Stretch.byteLength_masked, hall, List.append_nil, Stretch.size_append, hsize,
    Stretch.stop]

/-- The end of a block is looked for from its beginning on. -/
theorem find?_closing {start : Nat} {inside : List Lexeme}
    (h : Part all ⟨start, .plain '\x7b' :: inside⟩ []) :
    find? (ofLexemes all) '\x7d' start =
      pure ((cut '\x7d' inside).map fun found => start + 1 + size found.1) := by
  have hclose := find?_eq h (c := '\x7d') (by decide)
  rw [List.append_nil, cut, if_neg (by decide), Option.map_map] at hclose
  rw [hclose]
  congr 2
  funext found
  simp only [Function.comp_apply, size, Stretch.size_mark (c := '\x7b') (by decide)]
  omega

theorem agrees_declarations (h : Part all s []) (found : Declarations) :
    Agrees (ofLexemes all).source Eq (Stretch.declarations found s)
      (declarations (ofLexemes all) found s.offset) := by
  induction hn : s.lexemes.length using Nat.strongRecOn generalizing s found with
  | ind n ih =>
    obtain ⟨offset, ls⟩ := s
    have hnone : ∀ l ∈ ([] : List Lexeme).head?, l ≠ .plain ';' := fun _ hl => nomatch hl
    rw [declarations.eq_def, byteLength_text h]
    split
    · rename_i hle
      have hnil : ls = [] := List.isEmpty_iff.1 ((isEmpty_iff_stop_le _).2 hle)
      rw [hnil, Stretch.declarations_of_none rfl]
      exact .ok rfl
    · rw [find?_eq h (by decide), pure_bind, List.append_nil]
      dsimp only
      cases hcut : cut '\x7b' ls with
      | none =>
        obtain ⟨htrim, _, hheader⟩ := trimHeader_eq h hnone
        rw [Stretch.declarations_of_none hcut]
        dsimp only [Option.map_none]
        rw [htrim, pure_bind]
        dsimp only
        generalize Stretch.trimHeader _ = header at hheader
        by_cases hempty : header.lexemes.isEmpty = true
        · rw [if_pos hempty, if_pos ((isEmpty_iff_stop_le header).1 hempty)]
          exact .ok rfl
        · rw [if_neg hempty, if_neg fun hle => hempty ((isEmpty_iff_stop_le header).2 hle)]
          exact .error hheader.isBoundary
      | some cutting =>
        obtain ⟨before, inside⟩ := cutting
        obtain ⟨hhead, hopened⟩ := h.cut hcut
        have hinside : Part all ⟨offset + size before + 1, inside⟩ [] :=
          hopened.tail (by decide) rfl
        dsimp only [Option.map_some]
        rw [find?_closing hopened, pure_bind]
        cases hclose : cut '\x7d' inside with
        | none =>
          rw [Stretch.declarations_of_unclosed hcut hclose]
          exact .error hopened.isBoundary
        | some cutting =>
          obtain ⟨body, rest⟩ := cutting
          obtain ⟨hbody, hclosed⟩ := hinside.cut hclose
          have hrest : Part all ⟨offset + size before + 1 + size body + 1, rest⟩ [] :=
            hclosed.tail (by decide) rfl
          have hnext : ∀ l ∈ (Lexeme.plain '\x7b' :: (inside ++ [])).head?, l ≠ .plain ';' := by
            rintro _ ⟨⟩
            decide
          obtain ⟨htrim, _, hheader⟩ := trimHeader_eq hhead hnext
          rw [Stretch.declarations_of_block hcut hclose]
          dsimp only [Option.map_some]
          refine (agrees_declaration hhead hnext hbody).bind ?_
          rintro d _ rfl
          split
          · have hagain : trimHeader (ofLexemes all) offset (offset + size before) = _ := htrim
            rw [hagain, pure_bind]
            exact .error hheader.isBoundary
          · exact ih _ (hn ▸ Stretch.length_lt_of_block hcut hclose) hrest _ rfl

end Mask

end PageEngine
