import PageEngine.Proofs.Declaration.Readback
import PageEngine.Proofs.Declaration.Values

/-! The lexemes of a declaration text as a relation. Of all comments and literals the one that
begins first is taken, a block comment up to its first end, a line comment up to the end of
its line, a literal up to the first quote without a backslash. The reader of lexemes finds what
the relation says, and reports what is not closed where it begins. -/

namespace PageEngine

open Text (byteLength)

namespace Lexeme

/-- No quote ends a literal in the text. -/
def Unended (text : List Char) : Prop :=
  ∀ body rest, Unquoted '"' body → text ≠ body ++ '"' :: rest

/-- The lexemes of a text up to its end, or up to a comment or a literal that is not closed. -/
inductive LexedAs : List Char → List Lexeme → Option FormatErrorKind → Prop
  | done : LexedAs [] [] none
  | plain {c : Char} {rest : List Char} {ls : List Lexeme} {stop : Option FormatErrorKind}
      (hplain : StandsPlain c rest) (hrest : LexedAs rest ls stop) :
      LexedAs (c :: rest) (.plain c :: ls) stop
  | lineComment {text rest : List Char} {ls : List Lexeme} {stop : Option FormatErrorKind}
      (htext : '\n' ∉ text) (hend : ∀ c ∈ rest.head?, c = '\n') (hrest : LexedAs rest ls stop) :
      LexedAs ('/' :: '/' :: (text ++ rest)) (.lineComment text :: ls) stop
  | blockComment {text rest : List Char} {ls : List Lexeme} {stop : Option FormatErrorKind}
      (htext : ¬['*', '/'] <:+: text) (hrest : LexedAs rest ls stop) :
      LexedAs ('/' :: '*' :: (text ++ '*' :: '/' :: rest)) (.blockComment text :: ls) stop
  | literal {body rest : List Char} {ls : List Lexeme} {stop : Option FormatErrorKind}
      (hbody : Unquoted '"' body) (hrest : LexedAs rest ls stop) :
      LexedAs ('"' :: (body ++ '"' :: rest)) (.literal body :: ls) stop
  | openComment {text : List Char} (htext : ¬['*', '/'] <:+: text) :
      LexedAs ('/' :: '*' :: text) [] (some .unclosedComment)
  | openLiteral {text : List Char} (htext : Unended text) :
      LexedAs ('"' :: text) [] (some .unclosedString)

/-! ### Ends of comments and literals -/

theorem not_infix_of_takeBlock {cs text rest : List Char} (h : takeBlock cs = some (text, rest)) :
    ¬['*', '/'] <:+: text := by
  fun_induction takeBlock cs generalizing text with
  | case1 => cases h
  | case2 =>
    cases h
    simp
  | case3 c cs hend ih =>
    obtain ⟨⟨first, after⟩, hfirst, heq⟩ := Option.map_eq_some_iff.1 h
    cases heq
    intro hinfix
    rcases List.infix_cons_iff.1 hinfix with hprefix | hinfix
    · obtain ⟨hc, more, hmore⟩ := List.cons_prefix_cons.1 hprefix
      refine hend (more ++ '*' :: '/' :: rest) hc.symm ?_
      rw [eq_of_takeBlock hfirst, ← hmore]
      rfl
    · exact ih hfirst hinfix

theorem takeBlock_eq_none_iff {cs : List Char} :
    takeBlock cs = none ↔ ¬['*', '/'] <:+: cs := by
  constructor
  · intro hnone hinfix
    fun_induction takeBlock cs with
    | case1 => simp at hinfix
    | case2 => cases hnone
    | case3 c cs hend ih =>
      rcases List.infix_cons_iff.1 hinfix with hprefix | hinfix
      · obtain ⟨hc, more, hmore⟩ := List.cons_prefix_cons.1 hprefix
        exact hend more hc.symm hmore.symm
      · exact ih (Option.map_eq_none_iff.1 hnone) hinfix
  · intro hinfix
    cases h : takeBlock cs with
    | none => rfl
    | some found =>
      obtain ⟨text, rest⟩ := found
      exact absurd ⟨text, rest, by simp [eq_of_takeBlock h]⟩ hinfix

theorem takeLiteral_eq_none_iff {cs : List Char} : takeLiteral cs = none ↔ Unended cs := by
  constructor
  · rintro hnone body rest hbody rfl
    cases hnone.symm.trans (takeLiteral_append hbody rest)
  · intro hunended
    cases h : takeLiteral cs with
    | none => rfl
    | some found =>
      obtain ⟨body, rest⟩ := found
      exact absurd (eq_of_takeLiteral h) (hunended body rest (unquoted_of_takeLiteral h))

/-! ### The reader -/

variable {cs : List Char} {ls : List Lexeme} {stop : Option FormatErrorKind}

theorem lexFrom_openComment {offset : Nat} (h : takeBlock cs = none) :
    lexFrom offset ('/' :: '*' :: cs) = .error ⟨.unclosedComment, offset⟩ := by
  rw [lexFrom]
  split
  · rfl
  · rename_i hsome
    cases h.symm.trans hsome

theorem lexFrom_openLiteral {offset : Nat} (h : takeLiteral cs = none) :
    lexFrom offset ('"' :: cs) = .error ⟨.unclosedString, offset⟩ := by
  rw [lexFrom]
  split
  · rfl
  · rename_i hsome
    cases h.symm.trans hsome

/-- The lexemes, or the fault behind them. -/
def lexed (offset : Nat) (ls : List Lexeme) : Option FormatErrorKind → Except Fault (List Lexeme)
  | none => .ok ls
  | some kind => .error ⟨kind, offset + Stretch.size ls⟩

theorem map_lexed (offset : Nat) (l : Lexeme) (ls : List Lexeme) (stop : Option FormatErrorKind) :
    (lexed (offset + l.size) ls stop).map (l :: ·) = lexed offset (l :: ls) stop := by
  cases stop with
  | none => rfl
  | some kind => simp only [lexed, Except.map, Stretch.size, Nat.add_assoc]

/-- The reader finds the lexemes that the relation names. -/
theorem LexedAs.lexFrom_eq (h : LexedAs cs ls stop) (offset : Nat) :
    lexFrom offset cs = lexed offset ls stop := by
  induction h generalizing offset with
  | done => rw [lexFrom, lexed]
  | @plain c rest ls stop hplain _ ih =>
    have hsize : c.utf8Size = size (.plain c) := by simp [size, written]
    rw [lexFrom_plain hplain, hsize, ih, map_lexed]
  | @lineComment text rest ls stop htext hend _ ih =>
    obtain ⟨htake, hdrop⟩ := takeWhile_line htext hend
    rw [lexFrom_line, htake, hdrop, ih, map_lexed]
  | @blockComment text rest ls stop htext _ ih =>
    rw [lexFrom_block (takeBlock_of_text htext rest), ih, map_lexed]
  | @literal body rest ls stop hbody _ ih =>
    rw [lexFrom_literal (takeLiteral_append hbody rest), ih, map_lexed]
  | openComment htext => rw [lexFrom_openComment (takeBlock_eq_none_iff.2 htext)]; rfl
  | openLiteral htext => rw [lexFrom_openLiteral (takeLiteral_eq_none_iff.2 htext)]; rfl

/-- Every text has lexemes. -/
theorem exists_lexedAs (cs : List Char) : ∃ ls stop, LexedAs cs ls stop := by
  induction hn : cs.length using Nat.strongRecOn generalizing cs with
  | ind n ih =>
    have hshorter (rest : List Char) (h : rest.length < cs.length) :
        ∃ ls stop, LexedAs rest ls stop := ih _ (hn ▸ h) rest rfl
    fun_cases lexFrom 0 cs with
    | case1 => exact ⟨_, _, .done⟩
    | case2 cs hnone => exact ⟨_, _, .openComment (takeBlock_eq_none_iff.1 hnone)⟩
    | case3 cs text rest hblock =>
      have heq := eq_of_takeBlock hblock
      obtain ⟨ls, stop, h⟩ := hshorter rest (by rw [heq]; simp; omega)
      rw [heq]
      exact ⟨_, _, .blockComment (not_infix_of_takeBlock hblock) h⟩
    | case4 cs =>
      have hlength := (List.dropWhile_sublist (l := cs) (· != '\n')).length_le
      obtain ⟨ls, stop, h⟩ := hshorter (cs.dropWhile (· != '\n')) (by simp; omega)
      rw [← List.takeWhile_append_dropWhile (p := (· != '\n')) (l := cs)]
      refine ⟨_, _, .lineComment ?_ ?_ h⟩
      · intro hmem
        simpa using List.mem_takeWhile_imp hmem
      · intro c hc
        have hnot := List.head?_dropWhile_not (· != '\n') cs
        rw [hc] at hnot
        simpa using hnot
    | case5 cs hnone => exact ⟨_, _, .openLiteral (takeLiteral_eq_none_iff.1 hnone)⟩
    | case6 cs body rest hliteral =>
      have heq := eq_of_takeLiteral hliteral
      obtain ⟨ls, stop, h⟩ := hshorter rest (by rw [heq]; simp; omega)
      rw [heq]
      exact ⟨_, _, .literal (unquoted_of_takeLiteral hliteral) h⟩
    | case7 c cs hblock hline hquote =>
      obtain ⟨ls, stop, h⟩ := hshorter cs (by simp)
      exact ⟨_, _, .plain (.of_cases hblock hline hquote) h⟩

theorem lexedAs_of_lex (h : lex cs = .ok ls) : LexedAs cs ls none := by
  obtain ⟨found, stop, hfound⟩ := exists_lexedAs cs
  rw [lex, hfound.lexFrom_eq] at h
  cases stop with
  | none =>
    cases h
    exact hfound
  | some kind => cases h

/-- Up to where a comment or a literal is not closed, the lexemes are the text. -/
theorem LexedAs.written_eq (h : LexedAs cs ls stop) :
    ∃ rest, cs = ls.flatMap written ++ rest ∧ (stop = none → rest = []) := by
  induction h with
  | done => exact ⟨[], rfl, fun _ => rfl⟩
  | plain _ _ ih =>
    obtain ⟨more, rfl, hstop⟩ := ih
    exact ⟨more, by simp [written], hstop⟩
  | lineComment _ _ _ ih =>
    obtain ⟨more, rfl, hstop⟩ := ih
    exact ⟨more, by simp [written], hstop⟩
  | blockComment _ _ ih =>
    obtain ⟨more, rfl, hstop⟩ := ih
    exact ⟨more, by simp [written], hstop⟩
  | literal _ _ ih =>
    obtain ⟨more, rfl, hstop⟩ := ih
    exact ⟨more, by simp [written], hstop⟩
  | openComment => exact ⟨_, rfl, fun hstop => absurd hstop (by simp)⟩
  | openLiteral => exact ⟨_, rfl, fun hstop => absurd hstop (by simp)⟩

end Lexeme

end PageEngine
