import PageEngine.Proofs.Bytes.Declarations
import PageEngine.Proofs.Declaration.Grammar

/-! The pass that makes the mask of a declaration text. It makes the mask of the lexemes, one after
another, and fails where a comment or a literal is not closed. -/

namespace PageEngine

open Text (byteLength byteLength_cons byteLength_append)
open Lexeme (blankOut fillIn takeBlock takeLiteral LexedAs)

namespace Mask

variable {m : Mask} {idx start : Nat} {cs text rest : List Char}

@[simp] theorem push_push (m : Mask) (xs ys : List Char) :
    (m.push xs).push ys = m.push (xs ++ ys) := by
  simp [push]

@[simp] theorem push_nil (m : Mask) : m.push [] = m := by
  simp [push]

/-! ### Inside of comments and literals -/

theorem pass_blockComment (h : takeBlock cs = some (text, rest)) :
    pass (.blockComment start) idx m cs =
      pass .plain (idx + byteLength text + 2) (m.push (text.flatMap blankOut ++ [' ', ' '])) rest := by
  fun_induction takeBlock cs generalizing text idx m with
  | case1 => cases h
  | case2 cs =>
    cases h
    rw [pass]
    rfl
  | case3 c cs hend ih =>
    obtain ⟨⟨first, more⟩, hfirst, heq⟩ := Option.map_eq_some_iff.1 h
    cases heq
    rw [pass, ih hfirst, push_push, byteLength_cons, List.flatMap_cons, List.append_assoc,
      Nat.add_assoc idx]
    exact hend

theorem pass_openComment (h : takeBlock cs = none) :
    pass (.blockComment start) idx m cs = .error ⟨.unclosedComment, start⟩ := by
  fun_induction takeBlock cs generalizing idx m with
  | case1 => rw [pass]
  | case2 => cases h
  | case3 c cs hend ih =>
    rw [pass, ih (Option.map_eq_none_iff.1 h)]
    exact hend

theorem pass_lineComment (htext : '\n' ∉ text) (hend : ∀ c ∈ rest.head?, c = '\n') :
    pass .lineComment idx m (text ++ rest) =
      pass .plain (idx + byteLength text) (m.push (text.flatMap blankOut)) rest := by
  induction text generalizing idx m with
  | nil =>
    cases rest with
    | nil => rw [List.nil_append, pass, pass]; simp
    | cons c rest =>
      obtain rfl := hend c rfl
      conv_lhs => rw [List.nil_append, pass, if_pos rfl]
      simp
  | cons c text ih =>
    obtain ⟨hc, htext⟩ := not_or.1 (List.mem_cons.not.1 htext)
    rw [List.cons_append, pass, if_neg (Ne.symm hc), ih htext, push_push, byteLength_cons,
      List.flatMap_cons, Nat.add_assoc]

theorem pass_literal (h : takeLiteral cs = some (text, rest)) :
    pass (.literal start) idx m cs =
      pass .plain (idx + byteLength text + 1)
        ((m.push (text.flatMap fillIn ++ ['"'])).record (start, idx + byteLength text + 1)) rest := by
  fun_induction takeLiteral cs generalizing text idx m with
  | case1 => cases h
  | case2 cs =>
    cases h
    rw [pass]
    rfl
  | case3 c cs ih =>
    obtain ⟨⟨first, more⟩, hfirst, heq⟩ := Option.map_eq_some_iff.1 h
    cases heq
    have hidx : idx + 1 + c.utf8Size + byteLength first = idx + byteLength ('\\' :: c :: first) := by
      rw [byteLength_cons, byteLength_cons, Nat.add_assoc, Nat.add_assoc]
      rfl
    rw [pass, ih hfirst, push_push, hidx, List.flatMap_cons, List.flatMap_cons, List.append_assoc,
      List.append_assoc, List.append_assoc]
  | case4 c cs hquote hslash ih =>
    obtain ⟨⟨first, more⟩, hfirst, heq⟩ := Option.map_eq_some_iff.1 h
    cases heq
    rw [pass, ih hfirst, push_push, byteLength_cons, List.flatMap_cons, List.append_assoc,
      Nat.add_assoc idx]
    · exact hquote
    · exact hslash

theorem pass_openLiteral (h : takeLiteral cs = none) :
    pass (.literal start) idx m cs = .error ⟨.unclosedString, start⟩ := by
  fun_induction takeLiteral cs generalizing idx m with
  | case1 => rw [pass]
  | case2 => cases h
  | case3 c cs ih => rw [pass, ih (Option.map_eq_none_iff.1 h)]
  | case4 c cs hquote hslash ih =>
    rw [pass, ih (Option.map_eq_none_iff.1 h)]
    · exact hquote
    · exact hslash

/-! ### The whole pass -/

/-- The mask with some lexemes behind it. -/
def extend (m : Mask) (idx : Nat) (ls : List Lexeme) : Mask :=
  { m with
    text := m.text ++ ls.flatMap Lexeme.masked
    literals := m.literals ++ literalRanges idx ls }

theorem extend_nil (m : Mask) (idx : Nat) : m.extend idx [] = m := by
  simp [extend, literalRanges]

theorem extend_cons {l : Lexeme} (hl : ∀ body, l ≠ .literal body) (ls : List Lexeme) :
    (m.push l.masked).extend (idx + l.size) ls = m.extend idx (l :: ls) := by
  simp only [extend, push, literalRanges_cons_of_ne hl, List.flatMap_cons, List.append_assoc]

theorem extend_literal (body : List Char) (ls : List Lexeme) :
    ((m.push (Lexeme.literal body).masked).record (idx, idx + (Lexeme.literal body).size)).extend
        (idx + (Lexeme.literal body).size) ls = m.extend idx (.literal body :: ls) := by
  simp only [extend, push, record, literalRanges_cons_literal, List.flatMap_cons, List.append_assoc,
    List.cons_append, List.nil_append]

/-- What the pass comes to at the end of some lexemes. -/
def passed (idx : Nat) (m : Mask) (ls : List Lexeme) : Option FormatErrorKind → Except Fault Mask
  | none => .ok (m.extend idx ls)
  | some kind => .error ⟨kind, idx + Stretch.size ls⟩

theorem passed_cons {l : Lexeme} (hl : ∀ body, l ≠ .literal body) (ls : List Lexeme)
    (stop : Option FormatErrorKind) :
    passed (idx + l.size) (m.push l.masked) ls stop = passed idx m (l :: ls) stop := by
  cases stop with
  | none => exact congrArg _ (extend_cons hl ls)
  | some kind => simp only [passed, Stretch.size, Nat.add_assoc]

theorem passed_literal (body : List Char) (ls : List Lexeme) (stop : Option FormatErrorKind) :
    passed (idx + (Lexeme.literal body).size)
      ((m.push (Lexeme.literal body).masked).record (idx, idx + (Lexeme.literal body).size)) ls stop =
        passed idx m (.literal body :: ls) stop := by
  cases stop with
  | none => exact congrArg _ (extend_literal body ls)
  | some kind => simp only [passed, Stretch.size, Nat.add_assoc]

/-- The pass masks one lexeme after another. -/
theorem pass_eq {ls : List Lexeme} {stop : Option FormatErrorKind} (h : LexedAs cs ls stop) :
    pass .plain idx m cs = passed idx m ls stop := by
  induction h generalizing idx m with
  | done => rw [pass, passed, extend_nil]
  | @plain c rest ls stop hplain _ ih =>
    rw [pass, ih]
    · exact passed_cons (l := .plain c) (fun _ => Lexeme.noConfusion) ls stop
    · intro more hc hrest
      exact (hplain.notComment hc '*' (by simp [hrest])).1 rfl
    · intro more hc hrest
      exact (hplain.notComment hc '/' (by simp [hrest])).2 rfl
    · exact hplain.notQuote
  | @lineComment text rest ls stop htext hend _ ih =>
    have hslash : '\n' ∉ '/' :: text := by simp [htext]
    have hline : pass .lineComment (idx + 1) (m.push [' ']) ('/' :: text ++ rest) = _ :=
      pass_lineComment hslash hend
    rw [pass, ← List.cons_append, hline, ih, push_push, Nat.add_assoc]
    exact passed_cons (l := .lineComment text) (fun _ => Lexeme.noConfusion) ls stop
  | @blockComment text rest ls stop htext _ ih =>
    have hslash : '/'.utf8Size = 1 := rfl
    have hstar : '*'.utf8Size = 1 := rfl
    have hsize : idx + 2 + byteLength text + 2 = idx + (Lexeme.blockComment text).size := by
      simp [Lexeme.size, Lexeme.written, hslash, hstar]
      omega
    have hmasked : [' ', ' '] ++ (text.flatMap blankOut ++ [' ', ' ']) =
        (Lexeme.blockComment text).masked := by
      simp [Lexeme.masked, Lexeme.written, blankOut, hslash, hstar]
    rw [pass, pass_blockComment (Lexeme.takeBlock_of_text htext rest), ih, push_push, hsize, hmasked]
    exact passed_cons (fun _ => Lexeme.noConfusion) ls stop
  | @literal body rest ls stop hbody _ ih =>
    have hquote : '"'.utf8Size = 1 := rfl
    have hsize : idx + 1 + byteLength body + 1 = idx + (Lexeme.literal body).size := by
      simp [Lexeme.size, Lexeme.written, hquote]
      omega
    rw [pass, pass_literal (Lexeme.takeLiteral_append hbody rest), ih, push_push, hsize]
    exact passed_literal body ls stop
  | openComment htext =>
    rw [pass, pass_openComment (Lexeme.takeBlock_eq_none_iff.2 htext)]
    rfl
  | openLiteral htext =>
    rw [pass, pass_openLiteral (Lexeme.takeLiteral_eq_none_iff.2 htext)]
    rfl

/-- The pass makes the mask of the lexemes. -/
theorem ofSource_eq (source : List Char) : ofSource source =
    (Lexeme.lex source).map fun ls =>
      ⟨source, ls.flatMap Lexeme.masked, literalRanges 0 ls⟩ := by
  obtain ⟨ls, stop, h⟩ := Lexeme.exists_lexedAs source
  rw [ofSource, pass_eq h, Lexeme.lex, h.lexFrom_eq]
  cases stop with
  | none => simp [passed, extend, Lexeme.lexed, Except.map]
  | some kind => rfl

end Mask

end PageEngine
