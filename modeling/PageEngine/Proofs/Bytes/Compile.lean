import Mathlib.Algebra.Group.Nat.Defs
import PageEngine.Proofs.Bytes.Pass
import PageEngine.Proofs.Bytes.Template

/-! A template compiled by bytes, together with its declarations. What is found is what the readers
of characters find, for any two texts, and an error stands at a character of its text or at the
end. -/

namespace PageEngine

open Text (byteLength byteLength_append byteLength_cons byteLength_pos)

namespace Lexeme

variable {offset : Nat} {cs : List Char} {ls : List Lexeme} {fault : Fault}

/-- A fault in what follows a lexeme. -/
theorem error_of_map {l : Lexeme} {result : Except Fault (List Lexeme)}
    (h : result.map (l :: ·) = .error fault) : result = .error fault := by
  cases result with
  | error => exact congrArg _ (Except.error.inj h)
  | ok => cases h

/-- A comment or a literal that is not closed is reported where it begins. -/
theorem isBoundary_of_lexFrom {source : List Char} (h : lexFrom offset cs = .error fault)
    (hstands : (⟨offset, cs⟩ : Cursor).Stands source offset) :
    Text.IsBoundary source fault.offset := by
  fun_induction lexFrom offset cs with
  | case1 => cases h
  | case2 =>
    cases h
    exact hstands.isBoundary
  | case3 offset cs text rest hblock =>
    rename_i ih
    exact ih (error_of_map h) (hstands.past (written_blockComment hblock))
  | case4 offset cs =>
    rename_i ih
    exact ih (error_of_map h) (hstands.past (written_lineComment cs))
  | case5 =>
    cases h
    exact hstands.isBoundary
  | case6 offset cs body rest hliteral =>
    rename_i ih
    exact ih (error_of_map h) (hstands.past (written_literal hliteral))
  | case7 offset c cs _ _ _ ih => exact ih (error_of_map h) (hstands.next rfl)

end Lexeme

namespace ByteReader

variable {α : Type} {source : List Char}

/-- Declarations are read by bytes as they are read by characters. -/
theorem agrees_parse (source : List Char) :
    Agrees source Eq (Declarations.read source) (Mask.parse source) := by
  rw [Mask.parse, Mask.ofSource_eq, Declarations.read]
  cases hlex : Lexeme.lex source with
  | error fault => exact .error (Lexeme.isBoundary_of_lexFrom hlex (Cursor.Stands.start source))
  | ok lexemes =>
    have hsource := Lexeme.written_of_lexFrom hlex
    have hread := Mask.agrees_declarations (Stretch.Part.whole lexemes) []
    rw [Mask.ofLexemes, hsource] at hread
    exact hread

theorem run_located {source : String} {model : Except Fault α} {read : Checked α}
    (h : Agrees source.toList Eq model read) (sourceKind : SourceKind) :
    (located sourceKind source read).run =
      some (model.mapError (FormatError.ofFault sourceKind source)) := by
  cases h with
  | ok h =>
    cases h
    rfl
  | error => rfl

theorem run_compile (template declarations : String) :
    (compile template declarations).run = some (NodeTree.compile template declarations) := by
  have hdeclarations := run_located (agrees_parse declarations.toList) .declarations
  have htemplate (found : Declarations) :=
    run_located (agrees_template template.toList found) .template
  rw [compile, ExceptT.run_bind, hdeclarations, NodeTree.compile, Declarations.parse]
  cases Declarations.read declarations.toList with
  | error fault => rfl
  | ok found => exact htemplate found

end ByteReader

/-! ### Places of errors -/

namespace FormatError

/-- The error stands at a character of its text or at the end of it. If spans reach that far, its
span is that character, and empty only at the end. -/
def IsPlaced (e : FormatError) : Prop :=
  e.offset ≤ byteLength e.source.toList ∧
    ∃ before after, e.source.toList = before ++ after ∧ byteLength before = e.offset ∧
      (byteLength e.source.toList < 2 ^ 32 →
        e.span = ⟨e.offset, byteLength (after.take 1)⟩ ∧ (e.span.isEmpty = true ↔ after = []))

theorem span_eq {e : FormatError} {before after : List Char}
    (hsource : e.source.toList = before ++ after) (hoffset : byteLength before = e.offset)
    (hsize : byteLength e.source.toList ≤ maxOffset) :
    e.span = ⟨e.offset, byteLength (after.take 1)⟩ := by
  have hsplit : Text.splitBytes e.offset e.source.toList = some (before, after) := by
    rw [← hoffset, hsource]
    exact Text.splitBytes_append before after
  rw [hsource, byteLength_append, hoffset] at hsize
  rw [span, hsplit]
  cases after with
  | nil => exact (Span.ofBounds_eq (Nat.le_refl _) hsize).trans (by rw [Nat.sub_self]; rfl)
  | cons c rest =>
    rw [byteLength_cons] at hsize
    refine (Span.ofBounds_eq (Nat.le_add_right ..) (by omega)).trans ?_
    rw [Nat.add_sub_cancel_left]
    rfl

/-- A fault on a boundary is reported where it is. -/
theorem isPlaced_ofFault {source : String} {fault : Fault} (sourceKind : SourceKind)
    (h : Text.IsBoundary source.toList fault.offset) : (ofFault sourceKind source fault).IsPlaced := by
  obtain ⟨before, after, hsource, hbefore⟩ := h
  have hoffset : byteLength before = (ofFault sourceKind source fault).offset := by
    rw [ofFault, ← hbefore, hsource, byteLength_append]
    exact (Nat.min_eq_left (Nat.le_add_right ..)).symm
  refine ⟨Nat.min_le_right .., before, after, hsource, hoffset, fun hsize => ?_⟩
  rw [span_eq hsource hoffset (Nat.le_of_lt_succ hsize)]
  refine ⟨rfl, ?_⟩
  cases after with
  | nil => exact iff_of_true rfl rfl
  | cons c rest =>
    have hpos := byteLength_pos (List.cons_ne_nil c [])
    exact iff_of_false (fun h => Nat.ne_of_gt hpos (eq_of_beq h)) (List.cons_ne_nil c rest)

end FormatError

/-- A fault that compiling ends with lies on a boundary of the text that it was found in. -/
theorem NodeTree.isBoundary_of_compile {template declarations : String} {e : FormatError}
    (h : compile template declarations = .error e) :
    ∃ fault, (e = .ofFault .template template fault ∧
        Text.IsBoundary template.toList fault.offset) ∨
      (e = .ofFault .declarations declarations fault ∧
        Text.IsBoundary declarations.toList fault.offset) := by
  rw [compile, Declarations.parse] at h
  rcases (ByteReader.agrees_parse declarations.toList).cases with
    ⟨fault, hfault, -, hboundary⟩ | ⟨found, _, hfound, -⟩
  · rw [hfault] at h
    exact ⟨fault, .inr ⟨(Except.error.inj h).symm, hboundary⟩⟩
  · rw [hfound] at h
    have h : (read found template.toList).mapError _ = .error e := h
    rcases (ByteReader.agrees_template template.toList found).cases with
      ⟨fault, hfault, -, hboundary⟩ | ⟨tree, _, htree, -⟩
    · rw [hfault] at h
      exact ⟨fault, .inl ⟨(Except.error.inj h).symm, hboundary⟩⟩
    · rw [htree] at h
      cases h

/-- Compiling comes to a result for any two texts: no cut that it makes of them lies out of range or
splits a character. An error has its place in the text that it was found in. -/
theorem ByteReader.compile_returns (template declarations : String) :
    (compile template declarations).run = some (NodeTree.compile template declarations) ∧
      ∀ e, NodeTree.compile template declarations = .error e →
        e.source = (match e.sourceKind with
          | .template => template
          | .declarations => declarations) ∧ e.IsPlaced := by
  refine ⟨run_compile template declarations, fun e he => ?_⟩
  obtain ⟨fault, ⟨rfl, hboundary⟩ | ⟨rfl, hboundary⟩⟩ := NodeTree.isBoundary_of_compile he
  · exact ⟨rfl, FormatError.isPlaced_ofFault .template hboundary⟩
  · exact ⟨rfl, FormatError.isPlaced_ofFault .declarations hboundary⟩

/-- A value that is never closed, with a backslash in front of a last character of two bytes. -/
theorem ByteReader.compile_returns_openQuote :
    (compile "<wo:A b=\"\\é" "").run =
        some (.error ⟨.unclosedQuotedValue, 8, .template, "<wo:A b=\"\\é"⟩) ∧
      (⟨.unclosedQuotedValue, 8, .template, "<wo:A b=\"\\é"⟩ : FormatError).IsPlaced := by
  have herror : NodeTree.compile "<wo:A b=\"\\é" "" =
      .error ⟨.unclosedQuotedValue, 8, .template, "<wo:A b=\"\\é"⟩ := by
    have hkind : (NodeTree.compile "<wo:A b=\"\\é" "").map (fun _ => ()) =
        .error ⟨.unclosedQuotedValue, 8, .template, "<wo:A b=\"\\é"⟩ := by decide +kernel
    cases hcompile : NodeTree.compile "<wo:A b=\"\\é" "" with
    | ok => rw [hcompile] at hkind; cases hkind
    | error e => rw [hcompile] at hkind; exact congrArg _ (Except.error.inj hkind)
  obtain ⟨hrun, hplaced⟩ := compile_returns "<wo:A b=\"\\é" ""
  exact ⟨hrun.trans (congrArg some herror), (hplaced _ herror).2⟩

end PageEngine
