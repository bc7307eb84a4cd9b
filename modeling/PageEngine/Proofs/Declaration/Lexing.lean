import PageEngine.Proofs.Markup.Quotation

/-! Lexemes of composed texts. Where a text ends a line, nothing in it can reach into what follows,
so the lexemes of the two parts stand one after the other. Where a reader begins only decides
where its faults are placed. -/

namespace PageEngine

open Text (byteLength byteLength_cons byteLength_append)

/-- What comes of reading, without the place of a fault. -/
def outcome {α : Type} (result : Except Fault α) : Except FormatErrorKind α :=
  result.mapError Fault.kind

section Outcome

variable {α β : Type}

@[simp] theorem outcome_ok (a : α) : outcome (.ok a) = .ok a := rfl

@[simp] theorem outcome_error (fault : Fault) :
    outcome (.error fault : Except Fault α) = .error fault.kind := rfl

@[simp] theorem outcome_map (result : Except Fault α) (f : α → β) :
    outcome (result.map f) = (outcome result).map f := by
  cases result <;> rfl

theorem outcome_eq_ok_iff {result : Except Fault α} {a : α} :
    outcome result = .ok a ↔ result = .ok a := by
  cases result <;> simp

theorem outcome_bind {result result' : Except Fault α} {f g : α → Except Fault β}
    (h : outcome result = outcome result') (hnext : ∀ a, outcome (f a) = outcome (g a)) :
    outcome (result.bind f) = outcome (result'.bind g) := by
  cases result with
  | error fault =>
    cases result' with
    | error fault' => simpa [Except.bind] using h
    | ok => cases h
  | ok a =>
    rw [outcome_eq_ok_iff.1 h.symm]
    exact hnext a

end Outcome

namespace Lexeme

theorem takeBlock_append {cs text rest : List Char} (h : takeBlock cs = some (text, rest))
    (more : List Char) : takeBlock (cs ++ more) = some (text, rest ++ more) := by
  fun_induction takeBlock cs generalizing text with
  | case1 => cases h
  | case2 rest => simp_all [takeBlock]
  | case3 c cs hend ih =>
    obtain ⟨⟨t, r⟩, ht, heq⟩ := Option.map_eq_some_iff.1 h
    cases heq
    have hne : ∀ rest, c = '*' → cs ++ more = '/' :: rest → False := by
      intro rest hc hslash
      cases cs with
      | nil => cases ht
      | cons x xs => exact hend xs hc (congrArg (· :: xs) (List.cons.inj hslash).1)
    simp [takeBlock, ih ht]

theorem takeLiteral_append_of_some {cs body rest : List Char}
    (h : takeLiteral cs = some (body, rest)) (more : List Char) :
    takeLiteral (cs ++ more) = some (body, rest ++ more) := by
  fun_induction takeLiteral cs generalizing body with
  | case1 => cases h
  | case2 => simp_all [takeLiteral]
  | case3 c cs ih =>
    obtain ⟨⟨t, r⟩, ht, heq⟩ := Option.map_eq_some_iff.1 h
    cases heq
    simp [takeLiteral, ih ht]
  | case4 c cs hquote hslash ih =>
    obtain ⟨⟨t, r⟩, ht, heq⟩ := Option.map_eq_some_iff.1 h
    cases heq
    have hne : ∀ x rest, c = '\\' → cs ++ more = x :: rest → False := by
      intro x rest hc _
      cases cs with
      | nil => cases ht
      | cons y ys => exact hslash y ys hc rfl
    simp [takeLiteral, ih ht]

/-! ### One lexeme after another -/

variable {offset : Nat}

theorem written_blockComment {cs text rest : List Char} (h : takeBlock cs = some (text, rest)) :
    '/' :: '*' :: cs = (blockComment text).written ++ rest := by
  simp [written, eq_of_takeBlock h]

theorem written_lineComment (cs : List Char) : '/' :: '/' :: cs =
    (lineComment (cs.takeWhile (· != '\n'))).written ++ cs.dropWhile (· != '\n') := by
  simp [written]

theorem written_literal {cs body rest : List Char} (h : takeLiteral cs = some (body, rest)) :
    '"' :: cs = (literal body).written ++ rest := by
  simp [written, eq_of_takeLiteral h]

theorem lexFrom_block {cs text rest : List Char} (h : takeBlock cs = some (text, rest)) :
    lexFrom offset ('/' :: '*' :: cs) =
      (lexFrom (offset + size (.blockComment text)) rest).map (.blockComment text :: ·) := by
  rw [lexFrom]
  split
  · rename_i hnone
    cases h.symm.trans hnone
  · rename_i hsome
    cases h.symm.trans hsome
    rfl

theorem lexFrom_line (cs : List Char) :
    lexFrom offset ('/' :: '/' :: cs) =
      (lexFrom (offset + size (.lineComment (cs.takeWhile (· != '\n'))))
        (cs.dropWhile (· != '\n'))).map (.lineComment (cs.takeWhile (· != '\n')) :: ·) := by
  rw [lexFrom]

theorem lexFrom_literal {cs body rest : List Char} (h : takeLiteral cs = some (body, rest)) :
    lexFrom offset ('"' :: cs) =
      (lexFrom (offset + size (.literal body)) rest).map (.literal body :: ·) := by
  rw [lexFrom]
  split
  · rename_i hnone
    cases h.symm.trans hnone
  · rename_i hsome
    cases h.symm.trans hsome
    rfl

/-- Each character belongs to one lexeme. -/
theorem written_of_lexFrom {cs : List Char} {ls : List Lexeme} (h : lexFrom offset cs = .ok ls) :
    ls.flatMap written = cs := by
  fun_induction lexFrom offset cs generalizing ls with
  | case1 =>
    cases h
    rfl
  | case2 => cases h
  | case3 offset cs text rest hblock =>
    rename_i ih
    obtain ⟨found, hfound, rfl⟩ := exists_of_map_ok h
    rw [List.flatMap_cons, ih hfound]
    exact (written_blockComment hblock).symm
  | case4 offset cs =>
    rename_i ih
    obtain ⟨found, hfound, rfl⟩ := exists_of_map_ok h
    rw [List.flatMap_cons, ih hfound]
    exact (written_lineComment cs).symm
  | case5 => cases h
  | case6 offset cs body rest hliteral =>
    rename_i ih
    obtain ⟨found, hfound, rfl⟩ := exists_of_map_ok h
    rw [List.flatMap_cons, ih hfound]
    exact (written_literal hliteral).symm
  | case7 offset c cs _ _ _ ih =>
    obtain ⟨found, hfound, rfl⟩ := exists_of_map_ok h
    rw [List.flatMap_cons, ih hfound]
    rfl

theorem mem_blankOut {x y : Char} (h : y ∈ blankOut x) : y = ' ' ∨ y = '\n' := by
  unfold blankOut at h
  split at h
  · exact .inr (List.mem_singleton.1 h)
  · exact .inl (List.eq_of_mem_replicate h)

/-- A character that begins neither a literal nor, with what follows it, a comment. -/
structure StandsPlain (c : Char) (rest : List Char) : Prop where
  notQuote : c ≠ '"'
  notComment : c = '/' → ∀ x ∈ rest.head?, x ≠ '*' ∧ x ≠ '/'

/-- The characters that no other lexeme begins with. -/
theorem StandsPlain.of_cases {c : Char} {rest : List Char}
    (hblock : ∀ cs, c = '/' → rest = '*' :: cs → False)
    (hline : ∀ cs, c = '/' → rest = '/' :: cs → False) (hquote : c ≠ '"') :
    StandsPlain c rest where
  notQuote := hquote
  notComment := by
    intro hc x hx
    cases rest with
    | nil => cases hx
    | cons y ys =>
      cases hx
      exact ⟨fun h => hblock ys hc (congrArg (· :: ys) h),
        fun h => hline ys hc (congrArg (· :: ys) h)⟩

theorem lexFrom_plain {c : Char} {rest : List Char} (h : StandsPlain c rest) :
    lexFrom offset (c :: rest) = (lexFrom (offset + c.utf8Size) rest).map (.plain c :: ·) := by
  rw [lexFrom]
  · intro cs hc hrest
    exact (h.notComment hc '*' (by simp [hrest])).1 rfl
  · intro cs hc hrest
    exact (h.notComment hc '/' (by simp [hrest])).2 rfl
  · exact h.notQuote

/-- Where a text begins only decides where its faults are placed. -/
theorem outcome_lexFrom (offset offset' : Nat) (cs : List Char) :
    outcome (lexFrom offset cs) = outcome (lexFrom offset' cs) := by
  fun_induction lexFrom offset cs generalizing offset' with
  | case1 => simp [lexFrom]
  | case2 offset cs hnone =>
    rw [lexFrom]
    split
    · rfl
    · rename_i hsome
      cases hnone.symm.trans hsome
  | case3 offset cs text rest hblock _ _ ih =>
    rw [lexFrom_block hblock, outcome_map, outcome_map, ih]
  | case4 offset cs _ _ ih =>
    rw [lexFrom_line, outcome_map, outcome_map, ih]
  | case5 offset cs hnone =>
    rw [lexFrom]
    split
    · rfl
    · rename_i hsome
      cases hnone.symm.trans hsome
  | case6 offset cs body rest hliteral _ _ ih =>
    rw [lexFrom_literal hliteral, outcome_map, outcome_map, ih]
  | case7 offset c cs hblock hline hquote ih =>
    have hplain := StandsPlain.of_cases hblock hline hquote
    rw [lexFrom_plain hplain, outcome_map, outcome_map, ih]

/-- The text is empty or ends a line. -/
def EndsLine (cs : List Char) : Prop :=
  cs = [] ∨ cs.getLast? = some '\n'

theorem EndsLine.of_append {first rest : List Char} (h : EndsLine (first ++ rest)) :
    EndsLine rest := by
  rcases h with h | h
  · exact .inl (List.append_eq_nil_iff.1 h).2
  · cases rest with
    | nil => exact .inl rfl
    | cons c cs =>
      rw [List.getLast?_append_of_ne_nil _ (List.cons_ne_nil c cs)] at h
      exact .inr h

/-- One lexeme in front of a text that is put together. -/
theorem map_cons_lexFrom {cs rest more : List Char} {l : Lexeme} {ls : List Lexeme}
    (h : (lexFrom (offset + size l) rest).map (l :: ·) = .ok ls) (heq : cs = l.written ++ rest)
    (ih : ∀ {found}, lexFrom (offset + size l) rest = .ok found →
      lexFrom (offset + size l) (rest ++ more) =
        (lexFrom (offset + size l + byteLength rest) more).map (found ++ ·)) :
    (lexFrom (offset + size l) (rest ++ more)).map (l :: ·) =
      (lexFrom (offset + byteLength cs) more).map (ls ++ ·) := by
  obtain ⟨found, hfound, rfl⟩ := exists_of_map_ok h
  rw [ih hfound, heq, byteLength_append, ← Nat.add_assoc, ← size]
  cases lexFrom (offset + size l + byteLength rest) more <;> rfl

/-- A text that ends a line has a line end after any text without one. -/
theorem EndsLine.dropWhile_append {cs : List Char} (h : EndsLine ('/' :: '/' :: cs))
    (more : List Char) : (cs ++ more).takeWhile (· != '\n') = cs.takeWhile (· != '\n') ∧
      (cs ++ more).dropWhile (· != '\n') = cs.dropWhile (· != '\n') ++ more := by
  have hlast : cs.getLast? = some '\n' := by
    cases cs with
    | nil => simp [EndsLine] at h
    | cons c cs => simpa [EndsLine] using h
  have hmem : '\n' ∈ cs := List.mem_of_getLast? hlast
  clear h hlast
  induction cs with
  | nil => cases hmem
  | cons c cs ih =>
    by_cases hc : c = '\n'
    · simp [hc]
    · have hrest := ih ((List.mem_cons.1 hmem).resolve_left (Ne.symm hc))
      simp [hc, hrest]

/-- The lexemes of a text that ends a line are those of its beginning in any longer text. -/
theorem lexFrom_append {cs : List Char} {ls : List Lexeme} (h : lexFrom offset cs = .ok ls)
    (hend : EndsLine cs) (more : List Char) :
    lexFrom offset (cs ++ more) =
      (lexFrom (offset + byteLength cs) more).map (ls ++ ·) := by
  fun_induction lexFrom offset cs generalizing ls with
  | case1 =>
    cases h
    rw [List.nil_append, Text.byteLength_nil, Nat.add_zero]
    cases lexFrom _ more <;> rfl
  | case2 => cases h
  | case3 offset cs text rest hblock =>
    rename_i ih
    have heq := written_blockComment hblock
    rw [List.cons_append, List.cons_append, lexFrom_block (takeBlock_append hblock more)]
    rw [heq] at hend
    exact map_cons_lexFrom h heq fun hfound => ih hfound hend.of_append
  | case4 offset cs =>
    rename_i ih
    have heq := written_lineComment cs
    obtain ⟨htake, hdrop⟩ := hend.dropWhile_append more
    rw [List.cons_append, List.cons_append, lexFrom_line, htake, hdrop]
    rw [heq] at hend
    exact map_cons_lexFrom h heq fun hfound => ih hfound hend.of_append
  | case5 => cases h
  | case6 offset cs body rest hliteral =>
    rename_i ih
    have heq := written_literal hliteral
    rw [List.cons_append, lexFrom_literal (takeLiteral_append_of_some hliteral more)]
    rw [heq] at hend
    exact map_cons_lexFrom h heq fun hfound => ih hfound hend.of_append
  | case7 offset c cs hblock hline hquote ih =>
    have heq : c :: cs = (Lexeme.plain c).written ++ cs := rfl
    have hplain : StandsPlain c (cs ++ more) := by
      cases cs with
      | nil =>
        obtain rfl : c = '\n' := by simpa [EndsLine] using hend
        exact ⟨hquote, by simp⟩
      | cons x xs => exact ⟨hquote, (StandsPlain.of_cases hblock hline hquote).notComment⟩
    have hsize : c.utf8Size = size (.plain c) := by simp [size, written]
    rw [List.cons_append, lexFrom_plain hplain, hsize]
    rw [hsize] at h ih
    rw [heq] at hend
    exact map_cons_lexFrom h heq fun hfound => ih hfound hend.of_append

end Lexeme

end PageEngine
