import PageEngine.Proofs.Bytes.Checked
import PageEngine.Proofs.Declaration.Block

/-! The mask of a declaration text. It has a byte for each byte of the source, so a position in
one is a position in the other; what is looked for in the mask is found at the lexeme that it
stands for. -/

namespace PageEngine

open Text (byteLength byteLength_append)

namespace Lexeme

theorem byteLength_blankOut (x : Char) : byteLength (blankOut x) = x.utf8Size := by
  unfold blankOut
  split
  · rename_i hx
    rw [hx]
    rfl
  · have hall : ∀ n, byteLength (List.replicate n ' ') = n := fun n => by
      induction n with
      | zero => rfl
      | succ n ih => rw [List.replicate_succ, Text.byteLength_cons, ih, Nat.add_comm]; rfl
    exact hall _

theorem byteLength_fillIn (x : Char) : byteLength (fillIn x) = x.utf8Size := by
  have hall : ∀ n, byteLength (List.replicate n '_') = n := fun n => by
    induction n with
    | zero => rfl
    | succ n ih => rw [List.replicate_succ, Text.byteLength_cons, ih, Nat.add_comm]; rfl
  exact hall _

theorem byteLength_flatMap {f : Char → List Char} (hf : ∀ x, byteLength (f x) = x.utf8Size)
    (cs : List Char) : byteLength (cs.flatMap f) = byteLength cs := by
  induction cs with
  | nil => rfl
  | cons x cs ih => rw [List.flatMap_cons, byteLength_append, hf, ih, Text.byteLength_cons]

/-- The mask of a lexeme has its length. -/
theorem byteLength_masked (l : Lexeme) : byteLength l.masked = l.size := by
  cases l with
  | plain => rfl
  | lineComment => exact byteLength_flatMap byteLength_blankOut _
  | blockComment => exact byteLength_flatMap byteLength_blankOut _
  | literal body =>
    simp only [masked, size, written, Text.byteLength_cons, List.cons_append, byteLength_append,
      byteLength_flatMap byteLength_fillIn]

theorem size_pos (l : Lexeme) : 0 < l.size := by
  refine Text.byteLength_pos ?_
  cases l <;> exact List.cons_ne_nil _ _

theorem mem_fillIn {x y : Char} (h : y ∈ fillIn x) : y = '_' := List.eq_of_mem_replicate h

theorem mem_masked_literal {body : List Char} {y : Char} (h : y ∈ (literal body).masked) :
    y = '"' ∨ y = '_' := by
  rcases List.mem_append.1 h with h | h
  · rcases List.mem_cons.1 h with rfl | h
    · exact .inl rfl
    · obtain ⟨x, -, hy⟩ := List.mem_flatMap.1 h
      exact .inr (mem_fillIn hy)
  · exact .inl (List.mem_singleton.1 h)

/-- A blank lexeme is masked by blanks. -/
theorem isBlank_of_mem_masked {l : Lexeme} (h : l.isBlank = true) {y : Char} (hy : y ∈ l.masked) :
    Text.isBlank y = true := by
  have hblank {text : List Char} (hy : y ∈ text.flatMap blankOut) : Text.isBlank y = true := by
    obtain ⟨x, -, hx⟩ := List.mem_flatMap.1 hy
    rcases mem_blankOut hx with rfl | rfl <;> decide
  cases l with
  | plain => rwa [List.mem_singleton.1 hy]
  | lineComment => exact hblank hy
  | blockComment => exact hblank hy
  | literal => cases h

theorem head_masked {l : Lexeme} (h : l.isBlank = false) :
    ∃ y ys, l.masked = y :: ys ∧ Text.isBlank y = false := by
  cases l with
  | plain c => exact ⟨c, [], rfl, h⟩
  | lineComment => cases h
  | blockComment => cases h
  | literal body => exact ⟨'"', body.flatMap fillIn ++ ['"'], rfl, by decide⟩

theorem last_masked {l : Lexeme} (h : l.isBlank = false) :
    ∃ y ys, l.masked = ys ++ [y] ∧ Text.isBlank y = false := by
  cases l with
  | plain c => exact ⟨c, [], rfl, h⟩
  | lineComment => cases h
  | blockComment => cases h
  | literal body => exact ⟨'"', '"' :: body.flatMap fillIn, rfl, by decide⟩

/-- A mark stands in a mask only for itself. -/
theorem not_mem_masked {c : Char} (hc : c ∈ Stretch.marks) {l : Lexeme} (hl : l ≠ .plain c) :
    c ∉ l.masked := by
  have hmark : c ≠ ' ' ∧ c ≠ '\n' ∧ c ≠ '"' ∧ c ≠ '_' := by
    simp only [Stretch.marks, List.mem_cons, List.not_mem_nil, or_false] at hc
    rcases hc with rfl | rfl | rfl | rfl | rfl <;> decide
  have hblank {text : List Char} : c ∉ text.flatMap blankOut := fun hmem => by
    obtain ⟨x, -, hx⟩ := List.mem_flatMap.1 hmem
    exact (mem_blankOut hx).elim hmark.1 hmark.2.1
  cases l with
  | plain x => exact fun hmem => hl (congrArg plain (List.mem_singleton.1 hmem).symm)
  | lineComment => exact hblank
  | blockComment => exact hblank
  | literal => exact fun hmem => (mem_masked_literal hmem).elim hmark.2.2.1 hmark.2.2.2

end Lexeme

namespace Stretch

variable {c : Char} {ls before after lead body trail : List Lexeme} {s left right : Stretch}

theorem size_append (xs ys : List Lexeme) : size (xs ++ ys) = size xs + size ys := by
  induction xs with
  | nil => exact (Nat.zero_add _).symm
  | cons l xs ih => rw [List.cons_append, size, size, ih, Nat.add_assoc]

@[simp] theorem size_singleton (l : Lexeme) : size [l] = l.size := Nat.add_zero _

/-- The length of lexemes in a form that keeps the size of each. -/
theorem byteLength_flatMap {f : Lexeme → List Char} (hf : ∀ l, byteLength (f l) = l.size)
    (ls : List Lexeme) : byteLength (ls.flatMap f) = size ls := by
  induction ls with
  | nil => rfl
  | cons l ls ih => rw [List.flatMap_cons, byteLength_append, hf, ih, size]

theorem byteLength_masked (ls : List Lexeme) : byteLength (ls.flatMap Lexeme.masked) = size ls :=
  byteLength_flatMap Lexeme.byteLength_masked ls

theorem byteLength_written (ls : List Lexeme) :
    byteLength (ls.flatMap Lexeme.written) = size ls :=
  byteLength_flatMap (fun _ => rfl) ls

theorem size_pos (h : ls ≠ []) : 0 < size ls := by
  cases ls with
  | nil => exact absurd rfl h
  | cons l ls => exact Nat.add_pos_left l.size_pos _

/-- The offset behind a stretch. -/
def stop (s : Stretch) : Nat := s.offset + size s.lexemes

theorem isAscii_mark (hc : c ∈ marks) : Text.isAscii c = true :=
  List.all_eq_true.1 (by decide : marks.all Text.isAscii = true) c hc

theorem size_mark (hc : c ∈ marks) : (Lexeme.plain c).size = 1 := by
  have hsize : (Lexeme.plain c).size = c.utf8Size + 0 := rfl
  rw [hsize, Text.utf8Size_of_isAscii (isAscii_mark hc)]

/-! ### Blanks -/

theorem dropWhile_blank (h : ∀ l ∈ lead, l.isBlank = true) (cs : List Char) :
    (lead.flatMap Lexeme.masked ++ cs).dropWhile Text.isBlank = cs.dropWhile Text.isBlank := by
  refine List.dropWhile_append_of_pos fun y hy => ?_
  obtain ⟨l, hl, hy⟩ := List.mem_flatMap.1 hy
  exact Lexeme.isBlank_of_mem_masked (h l hl) hy

theorem dropWhile_tight (h : Tight body) (cs : List Char) :
    (body.flatMap Lexeme.masked ++ cs).dropWhile Text.isBlank =
      body.flatMap Lexeme.masked ++ cs := by
  obtain ⟨l, ls, rfl⟩ := List.exists_cons_of_ne_nil h.ne_nil
  obtain ⟨y, ys, hy, hblank⟩ := Lexeme.head_masked (h.head l rfl)
  rw [List.flatMap_cons, hy, List.cons_append, List.cons_append, List.dropWhile_cons_of_neg]
  simp [hblank]

theorem trimEnd_blank (h : ∀ l ∈ trail, l.isBlank = true) (cs : List Char) :
    Text.trimEnd (cs ++ trail.flatMap Lexeme.masked) = Text.trimEnd cs := by
  rw [Text.trimEnd, List.reverse_append, List.dropWhile_append_of_pos]
  · rfl
  · intro y hy
    obtain ⟨l, hl, hy⟩ := List.mem_flatMap.1 (List.mem_reverse.1 hy)
    exact Lexeme.isBlank_of_mem_masked (h l hl) hy

theorem trimEnd_tight (h : Tight body) (cs : List Char) :
    Text.trimEnd (cs ++ body.flatMap Lexeme.masked) = cs ++ body.flatMap Lexeme.masked := by
  have hlast := h.last _ (List.getLast?_eq_some_getLast h.ne_nil)
  obtain ⟨y, ys, hy, hblank⟩ := Lexeme.last_masked hlast
  rw [← List.dropLast_append_getLast h.ne_nil, List.flatMap_append, List.flatMap_singleton, hy,
    Text.trimEnd]
  simp [hblank]

/-- A stretch of blanks, or with something between blanks. -/
theorem blank_or_tight (ls : List Lexeme) : (∀ l ∈ ls, l.isBlank = true) ∨
    ∃ lead body trail, ls = lead ++ (body ++ trail) ∧ (∀ l ∈ lead, l.isBlank = true) ∧
      (∀ l ∈ trail, l.isBlank = true) ∧ Tight body := by
  by_cases hblank : ∀ l ∈ ls, l.isBlank = true
  · exact .inl hblank
  · have hlead := (List.takeWhile_append_dropWhile (p := Lexeme.isBlank) (l := ls)).symm
    generalize hinner : ls.dropWhile Lexeme.isBlank = inner at hlead
    have hhead : ∀ l ∈ inner.head?, l.isBlank = false := fun l hl => by
      have hnot := List.head?_dropWhile_not Lexeme.isBlank ls
      rw [hinner, hl] at hnot
      exact hnot
    have hends := (List.takeWhile_append_dropWhile (p := Lexeme.isBlank) (l := inner.reverse)).symm
    have hinner' := congrArg List.reverse hends
    rw [List.reverse_reverse, List.reverse_append] at hinner'
    have hne : inner.reverse.dropWhile Lexeme.isBlank ≠ [] := fun hnil => by
      have hall := List.dropWhile_eq_nil_iff.1 hnil
      refine hblank fun l hl => ?_
      rw [hlead] at hl
      rcases List.mem_append.1 hl with hl | hl
      · exact List.mem_takeWhile_imp hl
      · exact hall l (List.mem_reverse.2 hl)
    refine .inr ⟨_, _, _, hinner' ▸ hlead, fun l hl => List.mem_takeWhile_imp hl,
      fun l hl => List.mem_takeWhile_imp (List.mem_reverse.1 hl), ?_, ?_, ?_⟩
    · exact fun hnil => hne (List.reverse_eq_nil_iff.1 hnil)
    · intro l hl
      refine hhead l ?_
      rw [hinner', List.head?_append_of_ne_nil _ fun hnil => hne (List.reverse_eq_nil_iff.1 hnil)]
      exact hl
    · intro l hl
      have hnot := List.head?_dropWhile_not Lexeme.isBlank inner.reverse
      rw [List.getLast?_reverse] at hl
      rw [hl] at hnot
      exact hnot

variable {separator : Option Char} {offset mark : Nat}

theorem skipFrom_blank (hseparator : ∀ c ∈ separator, Text.isBlank c = false)
    (h : ∀ l ∈ lead, l.isBlank = true) (offset mark : Nat) (ls : List Lexeme) :
    skipFrom separator offset mark (lead ++ ls) =
      skipFrom separator (offset + size lead) mark ls := by
  induction lead generalizing offset with
  | nil => rfl
  | cons l lead ih =>
    obtain ⟨hl, hlead⟩ := List.forall_mem_cons.1 h
    have hne : separator.map Lexeme.plain ≠ some l := fun heq => by
      obtain ⟨c, hc, rfl⟩ := Option.map_eq_some_iff.1 heq
      cases (hseparator c hc).symm.trans hl
    rw [List.cons_append, skipFrom, if_neg hne, if_pos hl, ih hlead, size, Nat.add_assoc]

theorem skipFrom_other {l : Lexeme} (hseparator : separator.map Lexeme.plain ≠ some l)
    (hl : l.isBlank = false) : skipFrom separator offset mark (l :: ls) = ⟨offset, l :: ls⟩ := by
  rw [skipFrom, if_neg hseparator, hl, if_neg Bool.false_ne_true]

theorem trimEnd_append (htrail : ∀ l ∈ trail, l.isBlank = true) :
    (⟨offset, ls ++ trail⟩ : Stretch).trimEnd = (⟨offset, ls⟩ : Stretch).trimEnd := by
  simp only [trimEnd, List.reverse_append]
  rw [List.dropWhile_append_of_pos fun l hl => htrail l (List.mem_reverse.1 hl)]

theorem trimEnd_of_tight (h : Tight body) : (⟨offset, body⟩ : Stretch).trimEnd = ⟨offset, body⟩ := by
  have hlast : ∀ l ∈ body.reverse.head?, l.isBlank = false := by
    rw [List.head?_reverse]
    exact h.last
  simp only [trimEnd]
  rw [dropWhile_eq_self hlast, List.reverse_reverse]

theorem trim_blank (h : ∀ l ∈ s.lexemes, l.isBlank = true) : s.trim = ⟨s.offset, []⟩ := by
  have hnone : ∀ c ∈ (none : Option Char), Text.isBlank c = false := fun _ hc => nomatch hc
  have hskip := skipFrom_blank hnone h s.offset s.offset []
  rw [List.append_nil] at hskip
  rw [trim, hskip]
  rfl

theorem trim_tight (hs : s.lexemes = lead ++ (body ++ trail)) (hbody : Tight body)
    (hlead : ∀ l ∈ lead, l.isBlank = true) (htrail : ∀ l ∈ trail, l.isBlank = true) :
    s.trim = ⟨s.offset + size lead, body⟩ := by
  rw [trim, hs, skipFrom_blank (fun _ hc => absurd hc (by simp)) hlead]
  obtain ⟨l, ls, rfl⟩ := List.exists_cons_of_ne_nil hbody.ne_nil
  rw [List.cons_append, skipFrom_other (by simp) (hbody.head l rfl), ← List.cons_append,
    trimEnd_append htrail, trimEnd_of_tight hbody]

/-! ### Separators in front -/

theorem isBlank_semicolon : ∀ c ∈ some ';', Text.isBlank c = false := by
  rintro c ⟨⟩
  decide

/-- Blanks behind make no difference once the end is trimmed. -/
theorem trimEnd_skipFrom_append (hseparator : ∀ c ∈ separator, Text.isBlank c = false)
    (htrail : ∀ l ∈ trail, l.isBlank = true) (offset mark : Nat) (ls : List Lexeme) :
    (skipFrom separator offset mark (ls ++ trail)).trimEnd =
      (skipFrom separator offset mark ls).trimEnd := by
  induction ls generalizing offset mark with
  | nil =>
    have hskip := skipFrom_blank hseparator htrail offset mark []
    rw [List.append_nil] at hskip
    rw [List.nil_append, hskip]
    rfl
  | cons l ls ih =>
    rw [List.cons_append, skipFrom, skipFrom]
    split
    · exact ih _ _
    split
    · exact ih _ _
    · have htrim : (⟨offset, (l :: ls) ++ trail⟩ : Stretch).trimEnd =
          (⟨offset, l :: ls⟩ : Stretch).trimEnd := trimEnd_append htrail
      exact htrim

theorem trimHeader_separator {rest : List Lexeme} {first : Nat}
    (h : s.trim = ⟨first, .plain ';' :: rest⟩) :
    s.trimHeader = (⟨first + 1, rest⟩ : Stretch).trimHeader := by
  rcases blank_or_tight s.lexemes with hblank | ⟨lead, body, trail, hs, hlead, htrail, hbody⟩
  · cases (trim_blank hblank).symm.trans h
  · cases (trim_tight hs hbody hlead htrail).symm.trans h
    rw [trimHeader, hs, skipFrom_blank isBlank_semicolon hlead, List.cons_append, skipFrom,
      if_pos (by rfl), trimEnd_skipFrom_append isBlank_semicolon htrail]
    rfl

theorem trimHeader_of_ne (h : ∀ rest, s.trim.lexemes ≠ .plain ';' :: rest) :
    s.trimHeader = s.trim := by
  rcases blank_or_tight s.lexemes with hblank | ⟨lead, body, trail, hs, hlead, htrail, hbody⟩
  · have hskip := skipFrom_blank isBlank_semicolon hblank s.offset s.offset []
    rw [List.append_nil] at hskip
    rw [trim_blank hblank, trimHeader, hskip]
    rfl
  · have htrim := trim_tight hs hbody hlead htrail
    obtain ⟨l, ls, rfl⟩ := List.exists_cons_of_ne_nil hbody.ne_nil
    have hne : (some ';').map Lexeme.plain ≠ some l := fun heq => by
      cases heq
      exact h ls (congrArg lexemes htrim)
    rw [htrim, trimHeader, hs, skipFrom_blank isBlank_semicolon hlead, List.cons_append,
      skipFrom_other hne (hbody.head l rfl), ← List.cons_append, trimEnd_append htrail,
      trimEnd_of_tight hbody]

/-! ### Parts of all lexemes -/

/-- A stretch of some lexemes that others follow. -/
structure Part (all : List Lexeme) (s : Stretch) (after : List Lexeme) : Prop where
  split : ∃ before, all = before ++ (s.lexemes ++ after) ∧ size before = s.offset

namespace Part

variable {all : List Lexeme}

theorem whole (all : List Lexeme) : Part all ⟨0, all⟩ [] :=
  ⟨[], (List.append_nil all).symm, rfl⟩

theorem trim (h : Part all s after) :
    ∃ blanks, (∀ l ∈ blanks, l.isBlank = true) ∧ Part all s.trim (blanks ++ after) := by
  obtain ⟨before, hall, hsize⟩ := h.split
  rcases blank_or_tight s.lexemes with hblank | ⟨lead, body, trail, hs, hlead, htrail, hbody⟩
  · rw [trim_blank hblank]
    exact ⟨s.lexemes, hblank, before, hall, hsize⟩
  · rw [trim_tight hs hbody hlead htrail]
    refine ⟨trail, htrail, before ++ lead, ?_, ?_⟩
    · rw [hall, hs]
      simp only [List.append_assoc]
    · rw [size_append, hsize]

/-- What is left of a part behind the mark that it begins with. -/
theorem tail (h : Part all s after) (hc : c ∈ marks) (hs : s.lexemes = .plain c :: ls) :
    Part all ⟨s.offset + 1, ls⟩ after := by
  obtain ⟨before, hall, hsize⟩ := h.split
  refine ⟨before ++ [.plain c], ?_, ?_⟩
  · rw [hall, hs]
    simp only [List.append_assoc, List.cons_append, List.nil_append]
  · rw [size_append, hsize, size, size_mark hc]
    rfl

/-- The part before a mark, and the part that begins with it. -/
theorem cut {right : List Lexeme} (h : Part all s after)
    (hcut : Stretch.cut c s.lexemes = some (before, right)) :
    Part all ⟨s.offset, before⟩ (.plain c :: (right ++ after)) ∧
      Part all ⟨s.offset + size before, .plain c :: right⟩ after := by
  obtain ⟨front, hall, hsize⟩ := h.split
  rw [eq_of_cut hcut] at hall
  refine ⟨⟨front, ?_, hsize⟩, ⟨front ++ before, ?_, ?_⟩⟩
  · rw [hall]
    simp only [List.append_assoc, List.cons_append]
  · rw [hall]
    simp only [List.append_assoc, List.cons_append]
  · rw [size_append, hsize]

/-- The lexeme behind a part. -/
theorem next {l : Lexeme} (h : Part all s (l :: after)) : Part all ⟨s.stop, [l]⟩ after := by
  obtain ⟨before, hall, hsize⟩ := h.split
  refine ⟨before ++ s.lexemes, ?_, ?_⟩
  · rw [hall]
    simp only [List.append_assoc, List.cons_append, List.nil_append]
  · rw [size_append, hsize]
    rfl

/-- A part together with the lexeme behind it. -/
theorem extend {l : Lexeme} (h : Part all s (l :: after)) :
    Part all ⟨s.offset, s.lexemes ++ [l]⟩ after := by
  obtain ⟨before, hall, hsize⟩ := h.split
  refine ⟨before, ?_, hsize⟩
  rw [hall]
  simp only [List.append_assoc, List.cons_append, List.nil_append]

/-- The empty part behind a part. -/
theorem behind (h : Part all s after) : Part all ⟨s.stop, []⟩ after := by
  obtain ⟨before, hall, hsize⟩ := h.split
  refine ⟨before ++ s.lexemes, ?_, ?_⟩
  · rw [hall]
    simp only [List.append_assoc, List.nil_append]
  · rw [size_append, hsize]
    rfl

theorem stands {f : Lexeme → List Char} (hf : ∀ l, byteLength (f l) = l.size)
    (h : Part all s after) : (⟨s.offset, (s.lexemes ++ after).flatMap f⟩ : Cursor).Stands
      (all.flatMap f) s.offset := by
  obtain ⟨before, hall, hsize⟩ := h.split
  exact ⟨rfl, before.flatMap f, by rw [hall, List.flatMap_append],
    by rw [byteLength_flatMap hf, hsize]⟩

theorem isBoundary (h : Part all s after) :
    Text.IsBoundary (all.flatMap Lexeme.written) s.offset :=
  (h.stands fun _ => rfl).isBoundary

end Part

end Stretch

end PageEngine
