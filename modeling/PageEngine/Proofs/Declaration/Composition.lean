import PageEngine.Declaration.Basic
import PageEngine.Proofs.Declaration.Lexing

/-! Declarations one after another. What a stretch of lexemes says does not depend on where it
begins, and declarations that are complete are read as if nothing followed them: the reader of
two stretches goes on with the second where the first one ends. -/

namespace PageEngine

namespace Stretch

variable {c : Char} {ls before after more : List Lexeme} {s t : Stretch}

/-! ### Cuts -/

theorem cut_eq_none_iff : cut c ls = none ↔ .plain c ∉ ls := by
  induction ls with
  | nil => simp [cut]
  | cons l ls ih =>
    rw [cut]
    by_cases hl : l = .plain c
    · simp [hl]
    · simp [hl, ih, Ne.symm hl]

theorem cut_append_of_not_mem (h : .plain c ∉ before) (after : List Lexeme) :
    cut c (before ++ .plain c :: after) = some (before, after) := by
  induction before with
  | nil => simp [cut]
  | cons l before ih =>
    obtain ⟨hne, hrest⟩ := not_or.1 (List.mem_cons.not.1 h)
    rw [List.cons_append, cut, if_neg (Ne.symm hne), ih hrest]
    rfl

theorem not_mem_of_cut (h : cut c ls = some (before, after)) : .plain c ∉ before := by
  induction ls generalizing before with
  | nil => cases h
  | cons l ls ih =>
    rw [cut] at h
    split at h
    · cases h
      exact List.not_mem_nil
    · rename_i hne
      obtain ⟨⟨b, a⟩, hb, heq⟩ := Option.map_eq_some_iff.1 h
      cases heq
      exact List.not_mem_cons_of_ne_of_not_mem (Ne.symm hne) (ih hb)

theorem cut_append_of_cut (h : cut c ls = some (before, after)) (more : List Lexeme) :
    cut c (ls ++ more) = some (before, after ++ more) := by
  rw [eq_of_cut h, List.append_assoc, List.cons_append,
    cut_append_of_not_mem (not_mem_of_cut h)]

theorem cut_append_of_none (h : cut c ls = none) (more : List Lexeme) :
    cut c (ls ++ more) = (cut c more).map fun (before, after) => (ls ++ before, after) := by
  cases hmore : cut c more with
  | none =>
    rw [Option.map_none, cut_eq_none_iff]
    rw [cut_eq_none_iff] at h hmore
    exact fun hmem => (List.mem_append.1 hmem).elim h hmore
  | some found =>
    obtain ⟨before, after⟩ := found
    have hnot : .plain c ∉ ls ++ before := fun hmem =>
      (List.mem_append.1 hmem).elim (cut_eq_none_iff.1 h) (not_mem_of_cut hmore)
    rw [eq_of_cut hmore, ← List.append_assoc, cut_append_of_not_mem hnot]
    rfl

/-! ### Blanks -/

/-- What is skipped in front of a declaration or of a part of it. -/
def isSkipped (separator : Option Char) (l : Lexeme) : Bool :=
  separator.map Lexeme.plain = some l || l.isBlank

theorem lexemes_skipFrom (separator : Option Char) (offset mark : Nat) (ls : List Lexeme) :
    (skipFrom separator offset mark ls).lexemes = ls.dropWhile (isSkipped separator) := by
  induction ls generalizing offset mark with
  | nil => rfl
  | cons l ls ih =>
    rw [skipFrom]
    split
    · rename_i hseparator
      rw [ih, List.dropWhile_cons_of_pos (by simp [isSkipped, hseparator])]
    · rename_i hseparator
      split
      · rename_i hblank
        rw [ih, List.dropWhile_cons_of_pos (by simp [isSkipped, hblank])]
      · rename_i hblank
        rw [List.dropWhile_cons_of_neg (by simp [isSkipped, hseparator, hblank])]

/-- The lexemes between the blanks, and the separators in front, that are skipped. -/
def trimmed (separator : Option Char) (ls : List Lexeme) : List Lexeme :=
  ((ls.dropWhile (isSkipped separator)).reverse.dropWhile Lexeme.isBlank).reverse

theorem lexemes_trim (s : Stretch) : s.trim.lexemes = trimmed none s.lexemes := by
  rw [trim, trimEnd, lexemes_skipFrom]
  rfl

theorem lexemes_trimHeader (s : Stretch) : s.trimHeader.lexemes = trimmed (some ';') s.lexemes := by
  rw [trimHeader, trimEnd, lexemes_skipFrom]
  rfl

theorem isSkipped_of_trimmed_eq_nil {separator : Option Char} (h : trimmed separator ls = []) :
    ∀ l ∈ ls, isSkipped separator l = true := by
  have hblank : ∀ l ∈ ls.dropWhile (isSkipped separator), l.isBlank = true := by
    simpa [trimmed] using h
  refine List.dropWhile_eq_nil_iff.1 (Classical.byContradiction fun hne => ?_)
  have hhead := List.head_dropWhile_not (isSkipped separator) hne
  rw [isSkipped, hblank _ (List.head_mem hne), Bool.or_true] at hhead
  cases hhead

theorem trimmed_append_of_isSkipped {separator : Option Char}
    (h : ∀ l ∈ ls, isSkipped separator l = true) (more : List Lexeme) :
    trimmed separator (ls ++ more) = trimmed separator more := by
  rw [trimmed, List.dropWhile_append_of_pos h]
  rfl

/-! ### Readers and where they begin -/

theorem cutAt_eq_map (s : Stretch) (c : Char) : s.cutAt c = (cut c s.lexemes).map
    fun (before, after) => (⟨s.offset, before⟩, ⟨s.offset + size before + 1, after⟩) := rfl

theorem outcome_binding? (offset offset' : Nat) (ls : List Lexeme) :
    outcome (binding? ⟨offset, ls⟩) = outcome (binding? ⟨offset', ls⟩) := by
  unfold binding?
  simp only [cutAt_eq_map, lexemes_trim, restored]
  cases trimmed none ls with
  | nil => rfl
  | cons l rest =>
    cases cut '=' (l :: rest) with
    | none => rfl
    | some found =>
      obtain ⟨left, right⟩ := found
      simp only [Option.map_some, List.isEmpty_cons, Bool.false_eq_true, if_false]
      cases trimmed none left with
      | nil => rfl
      | cons k keys =>
        simp only [List.isEmpty_cons, Bool.false_eq_true, if_false]
        split <;> rfl

theorem bindingsOf_cons (found : Bindings) (line : Stretch) (rest : List Stretch) :
    bindingsOf found (line :: rest) = line.binding?.bind fun entry? =>
      match entry? with
      | none => bindingsOf found rest
      | some (key, value) => bindingsOf (Dictionary.insert key value found) rest := by
  rw [bindingsOf]
  cases line.binding? with
  | error => rfl
  | ok entry? => cases entry? <;> rfl

theorem outcome_bindingsOf (found : Bindings) {lines lines' : List Stretch}
    (h : lines.map lexemes = lines'.map lexemes) :
    outcome (bindingsOf found lines) = outcome (bindingsOf found lines') := by
  induction lines generalizing found lines' with
  | nil =>
    rw [List.map_eq_nil_iff.1 h.symm]
  | cons line rest ih =>
    obtain ⟨line', rest', rfl, hline, hrest⟩ := List.map_eq_cons_iff.1 h.symm
    have hrest := fun found => ih found hrest.symm
    have hbinding : outcome line.binding? = outcome line'.binding? := by
      obtain ⟨offset, ls⟩ := line
      obtain ⟨offset', ls'⟩ := line'
      cases hline
      exact outcome_binding? offset offset' ls
    rw [bindingsOf_cons, bindingsOf_cons]
    refine outcome_bind hbinding fun result => ?_
    cases result with
    | none => exact hrest found
    | some entry => exact hrest _

theorem pieces_of_none (h : cut c ls = none) (offset : Nat) :
    pieces c ⟨offset, ls⟩ = [⟨offset, ls⟩] := by
  rw [pieces, cutAt_eq_map, h]
  rfl

theorem pieces_of_cut (h : cut c ls = some (before, after)) (offset : Nat) :
    pieces c ⟨offset, ls⟩ =
      ⟨offset, before⟩ :: pieces c ⟨offset + size before + 1, after⟩ := by
  rw [pieces, cutAt_eq_map, h]
  rfl

theorem lexemes_pieces (c : Char) (offset offset' : Nat) (ls : List Lexeme) :
    (pieces c ⟨offset, ls⟩).map lexemes = (pieces c ⟨offset', ls⟩).map lexemes := by
  induction hn : ls.length using Nat.strongRecOn generalizing ls offset offset' with
  | ind n ih =>
    cases hcut : cut c ls with
    | none => rw [pieces_of_none hcut, pieces_of_none hcut]; rfl
    | some found =>
      obtain ⟨before, after⟩ := found
      have hlt : after.length < n := by
        rw [← hn, eq_of_cut hcut, List.length_append, List.length_cons]
        omega
      rw [pieces_of_cut hcut, pieces_of_cut hcut, List.map_cons, List.map_cons,
        ih _ hlt _ _ after rfl]

theorem outcome_declaration {header header' body body' : Stretch}
    (hheader : header.lexemes = header'.lexemes) (hbody : body.lexemes = body'.lexemes) :
    outcome (declaration header body) = outcome (declaration header' body') := by
  obtain ⟨start, head⟩ := header
  obtain ⟨start', head'⟩ := header'
  obtain ⟨offset, ls⟩ := body
  obtain ⟨offset', ls'⟩ := body'
  cases hheader
  cases hbody
  unfold declaration
  simp only [cutAt_eq_map, lexemes_trim, masked]
  cases cut ':' head with
  | none => rfl
  | some found =>
    obtain ⟨left, right⟩ := found
    simp only [Option.map_some]
    split
    · rfl
    · split
      · rfl
      · rw [outcome_map, outcome_map,
          outcome_bindingsOf [] (lexemes_pieces ';' offset offset' ls)]

/-! ### Declarations -/

variable {found all : Declarations} {offset : Nat} {d : Declaration}

theorem declarations_of_none (h : cut '\x7b' ls = none) :
    declarations found ⟨offset, ls⟩ =
      let header := trimHeader ⟨offset, ls⟩
      if header.lexemes.isEmpty then .ok found else .error ⟨.missingBlock, header.offset⟩ := by
  rw [declarations, cutAt_eq_map, h]
  rfl

theorem declarations_of_unclosed (h : cut '\x7b' ls = some (before, after))
    (hclose : cut '\x7d' after = none) :
    declarations found ⟨offset, ls⟩ = .error ⟨.unclosedBlock, offset + size before⟩ := by
  rw [declarations, cutAt_eq_map, h]
  simp only [Option.map_some]
  rw [cutAt_eq_map, hclose]
  rfl

/-- What the reader does with a block and its head. -/
theorem declarations_of_block {body rest : List Lexeme}
    (h : cut '\x7b' ls = some (before, after)) (hclose : cut '\x7d' after = some (body, rest)) :
    declarations found ⟨offset, ls⟩ =
      let header := trimHeader ⟨offset, before⟩
      let inside := offset + size before + 1
      (declaration header ⟨inside, body⟩).bind fun d =>
        if Dictionary.contains d.name found then .error ⟨.duplicateTagName d.name, header.offset⟩
        else declarations (Dictionary.insert d.name d found) ⟨inside + size body + 1, rest⟩ := by
  rw [declarations, cutAt_eq_map, h]
  simp only [Option.map_some]
  rw [cutAt_eq_map, hclose]
  dsimp only [Option.map_some]
  cases declaration _ _ <;> rfl

theorem length_lt_of_block {body rest : List Lexeme} (hcut : cut '\x7b' ls = some (before, after))
    (hclose : cut '\x7d' after = some (body, rest)) : rest.length < ls.length := by
  rw [eq_of_cut hcut, eq_of_cut hclose]
  simp only [List.length_append, List.length_cons]
  omega

/-- Blanks and semicolons in front are passed over, and where a stretch begins only decides where
faults are placed. -/
theorem outcome_declarations_of_isSkipped (found : Declarations) (offset offset' : Nat)
    (h : ∀ l ∈ ls, isSkipped (some ';') l = true) (more : List Lexeme) :
    outcome (declarations found ⟨offset, ls ++ more⟩) =
      outcome (declarations found ⟨offset', more⟩) := by
  induction hn : more.length using Nat.strongRecOn
    generalizing found ls more offset offset' with
  | ind n ih =>
    have hopen : .plain '\x7b' ∉ ls := fun hmem => absurd (h _ hmem) (by decide)
    have hheader (cs : List Lexeme) :
        (trimHeader ⟨offset, ls ++ cs⟩).lexemes = (trimHeader ⟨offset', cs⟩).lexemes := by
      rw [lexemes_trimHeader, lexemes_trimHeader, trimmed_append_of_isSkipped h]
    have hcut := cut_append_of_none (cut_eq_none_iff.2 hopen) more
    cases hmore : cut '\x7b' more with
    | none =>
      rw [hmore] at hcut
      rw [declarations_of_none hcut, declarations_of_none hmore]
      simp only [hheader]
      split <;> rfl
    | some split =>
      obtain ⟨before, after⟩ := split
      rw [hmore] at hcut
      cases hclose : cut '\x7d' after with
      | none =>
        rw [declarations_of_unclosed hcut hclose, declarations_of_unclosed hmore hclose]
        rfl
      | some split =>
        obtain ⟨body, rest⟩ := split
        rw [declarations_of_block hcut hclose, declarations_of_block hmore hclose]
        refine outcome_bind (outcome_declaration (hheader before) rfl) fun d => ?_
        split
        · rfl
        · have hnone : ∀ l ∈ ([] : List Lexeme), isSkipped (some ';') l = true :=
            fun _ hl => nomatch hl
          exact ih _ (hn ▸ length_lt_of_block hmore hclose) _ _ _ hnone rest rfl

/-- How a stretch is read without a fault: it holds only what is passed over, or it begins with a
block of a new name. -/
theorem declarations_cases (h : declarations found ⟨offset, ls⟩ = .ok all) :
    ((∀ l ∈ ls, isSkipped (some ';') l = true) ∧ all = found) ∨
      ∃ before after body rest d, cut '\x7b' ls = some (before, after) ∧
        cut '\x7d' after = some (body, rest) ∧
        declaration (trimHeader ⟨offset, before⟩) ⟨offset + size before + 1, body⟩ = .ok d ∧
        Dictionary.contains d.name found = false ∧
        declarations (Dictionary.insert d.name d found)
          ⟨offset + size before + 1 + size body + 1, rest⟩ = .ok all := by
  cases hcut : cut '\x7b' ls with
  | none =>
    rw [declarations_of_none hcut] at h
    dsimp only at h
    split at h
    · rename_i hempty
      rw [lexemes_trimHeader, List.isEmpty_iff] at hempty
      exact .inl ⟨isSkipped_of_trimmed_eq_nil hempty, (Except.ok.inj h).symm⟩
    · cases h
  | some parts =>
    obtain ⟨before, after⟩ := parts
    cases hclose : cut '\x7d' after with
    | none =>
      rw [declarations_of_unclosed hcut hclose] at h
      cases h
    | some parts =>
      obtain ⟨body, rest⟩ := parts
      rw [declarations_of_block hcut hclose] at h
      cases hdeclaration : declaration (trimHeader ⟨offset, before⟩)
          ⟨offset + size before + 1, body⟩ with
      | error fault =>
        simp only [hdeclaration] at h
        cases h
      | ok d =>
        simp only [hdeclaration, Except.bind] at h
        split at h
        · cases h
        · rename_i hnew
          have hnew : Dictionary.contains d.name found = false := by simpa using hnew
          exact .inr ⟨before, after, body, rest, d, rfl, hclose, hdeclaration, hnew, h⟩

theorem declarations_of_new {body rest : List Lexeme} (hcut : cut '\x7b' ls = some (before, after))
    (hclose : cut '\x7d' after = some (body, rest))
    (hdeclaration : declaration (trimHeader ⟨offset, before⟩) ⟨offset + size before + 1, body⟩ =
      .ok d) (hnew : Dictionary.contains d.name found = false) :
    declarations found ⟨offset, ls⟩ = declarations (Dictionary.insert d.name d found)
      ⟨offset + size before + 1 + size body + 1, rest⟩ := by
  rw [declarations_of_block hcut hclose]
  simp only [hdeclaration, Except.bind, hnew, Bool.false_eq_true, if_false]

/-- Declarations that are complete are read as if nothing followed them. -/
theorem outcome_declarations_append (h : declarations found ⟨offset, ls⟩ = .ok all)
    (offset' : Nat) (more : List Lexeme) :
    outcome (declarations found ⟨offset, ls ++ more⟩) =
      outcome (declarations all ⟨offset', more⟩) := by
  induction hn : ls.length using Nat.strongRecOn generalizing found ls offset with
  | ind n ih =>
    obtain ⟨hskipped, rfl⟩ | ⟨before, after, body, rest, d, hcut, hclose, hd, hnew, hrest⟩ :=
      declarations_cases h
    · exact outcome_declarations_of_isSkipped _ offset offset' hskipped more
    · rw [declarations_of_new (cut_append_of_cut hcut more) (cut_append_of_cut hclose more) hd hnew]
      exact ih _ (hn ▸ length_lt_of_block hcut hclose) hrest rfl

/-- What is found stays found. -/
theorem get?_of_declarations (h : declarations found ⟨offset, ls⟩ = .ok all) {name : String}
    (hname : Dictionary.get? name found = some d) : Dictionary.get? name all = some d := by
  induction hn : ls.length using Nat.strongRecOn generalizing found ls offset with
  | ind n ih =>
    obtain ⟨-, rfl⟩ | ⟨before, after, body, rest, d', hcut, hclose, -, hnew, hrest⟩ :=
      declarations_cases h
    · exact hname
    · refine ih _ (hn ▸ length_lt_of_block hcut hclose) hrest ?_ rfl
      have hne : name ≠ d'.name := by
        rintro rfl
        simp [Dictionary.contains, hname] at hnew
      rwa [Dictionary.get?_insert_of_ne hne]

/-- Further declarations, under other names, are kept beside those that are read. -/
theorem declarations_beside {known extra : Declarations}
    (h : declarations found ⟨offset, ls⟩ = .ok all)
    (hknown : ∀ name, Dictionary.get? name known =
      (Dictionary.get? name found).or (Dictionary.get? name extra))
    (hapart : ∀ name, Dictionary.contains name all = true → Dictionary.get? name extra = none) :
    ∃ joined, declarations known ⟨offset, ls⟩ = .ok joined ∧
      ∀ name, Dictionary.get? name joined =
        (Dictionary.get? name all).or (Dictionary.get? name extra) := by
  induction hn : ls.length using Nat.strongRecOn generalizing found known ls offset with
  | ind n ih =>
    obtain ⟨hskipped, rfl⟩ | ⟨before, after, body, rest, d, hcut, hclose, hd, hnew, hrest⟩ :=
      declarations_cases h
    · have hread := outcome_declarations_of_isSkipped known offset offset hskipped []
      rw [List.append_nil, declarations_of_none (cut_eq_none_iff.2 List.not_mem_nil)] at hread
      exact ⟨known, outcome_eq_ok_iff.1 hread, hknown⟩
    · have hname : Dictionary.get? d.name all = some d :=
        get?_of_declarations hrest (Dictionary.get?_insert_self d.name d found)
      have hextra : Dictionary.get? d.name extra = none :=
        hapart d.name (by simp [Dictionary.contains, hname])
      have hfresh : Dictionary.contains d.name known = false := by
        simp only [Dictionary.contains, hknown, hextra, Option.or_none] at hnew ⊢
        exact hnew
      rw [declarations_of_new hcut hclose hd hfresh]
      refine ih _ (hn ▸ length_lt_of_block hcut hclose) hrest (fun name => ?_) rfl
      by_cases heq : name = d.name
      · simp [heq]
      · rw [Dictionary.get?_insert_of_ne heq, Dictionary.get?_insert_of_ne heq, hknown]

end Stretch

namespace Declarations

variable {found earlier later : Declarations} {first rest source : List Char}

/-- Read declarations after those already found. -/
def readAfter (found : Declarations) (source : List Char) : Except Fault Declarations :=
  (Lexeme.lex source).bind fun lexemes => Stretch.declarations found ⟨0, lexemes⟩

theorem read_eq_readAfter (source : List Char) : read source = readAfter [] source := by
  rw [read, readAfter]
  cases Lexeme.lex source <;> rfl

theorem lex_of_readAfter {all : Declarations} (h : readAfter found source = .ok all) :
    ∃ lexemes, Lexeme.lex source = .ok lexemes ∧
      Stretch.declarations found ⟨0, lexemes⟩ = .ok all := by
  rw [readAfter] at h
  cases hlex : Lexeme.lex source with
  | error fault =>
    rw [hlex] at h
    cases h
  | ok lexemes =>
    rw [hlex] at h
    exact ⟨lexemes, rfl, h⟩

theorem lex_of_parse {source : String} {all : Declarations} (h : parse source = .ok all) :
    ∃ lexemes, Lexeme.lex source.toList = .ok lexemes ∧
      Stretch.declarations [] ⟨0, lexemes⟩ = .ok all := by
  unfold parse at h
  cases hread : read source.toList with
  | error fault =>
    rw [hread] at h
    cases h
  | ok found =>
    rw [hread] at h
    cases h
    exact lex_of_readAfter ((read_eq_readAfter source.toList).symm.trans hread)

/-- Reading goes on behind a text whose lexemes stand for themselves. -/
theorem outcome_readAfter_of_lex {lexemes : List Lexeme}
    (hlex : outcome (Lexeme.lex (first ++ rest)) =
      outcome ((Lexeme.lex rest).map (lexemes ++ ·)))
    (hread : ∀ more, outcome (Stretch.declarations found ⟨0, lexemes ++ more⟩) =
      outcome (Stretch.declarations earlier ⟨0, more⟩)) :
    outcome (readAfter found (first ++ rest)) = outcome (readAfter earlier rest) := by
  have hmap : ((Lexeme.lex rest).map (lexemes ++ ·)).bind
      (fun ls => Stretch.declarations found ⟨0, ls⟩) =
        (Lexeme.lex rest).bind fun ls => Stretch.declarations found ⟨0, lexemes ++ ls⟩ := by
    cases Lexeme.lex rest <;> rfl
  calc outcome (readAfter found (first ++ rest))
      = outcome (((Lexeme.lex rest).map (lexemes ++ ·)).bind
          fun ls => Stretch.declarations found ⟨0, ls⟩) := outcome_bind hlex fun _ => rfl
    _ = outcome ((Lexeme.lex rest).bind
          fun ls => Stretch.declarations found ⟨0, lexemes ++ ls⟩) := by rw [hmap]
    _ = outcome (readAfter earlier rest) := outcome_bind rfl hread

/-- A text that ends a line and is read without a fault is read first. -/
theorem outcome_readAfter_append (hend : Lexeme.EndsLine first)
    (h : readAfter found first = .ok earlier) (rest : List Char) :
    outcome (readAfter found (first ++ rest)) = outcome (readAfter earlier rest) := by
  obtain ⟨lexemes, hlex, hdeclarations⟩ := lex_of_readAfter h
  refine outcome_readAfter_of_lex ?_ (Stretch.outcome_declarations_append hdeclarations 0)
  rw [Lexeme.lex, Lexeme.lexFrom_append hlex hend, outcome_map, outcome_map]
  exact congrArg _ (Lexeme.outcome_lexFrom _ _ rest)

/-- Declarations of other names do not hinder reading. -/
theorem readAfter_of_read (h : read source = .ok later)
    (hapart : ∀ name, Dictionary.contains name later = true →
      Dictionary.get? name earlier = none) :
    ∃ all, readAfter earlier source = .ok all ∧ ∀ name, Dictionary.get? name all =
      (Dictionary.get? name later).or (Dictionary.get? name earlier) := by
  rw [read_eq_readAfter] at h
  obtain ⟨lexemes, hlex, hdeclarations⟩ := lex_of_readAfter h
  obtain ⟨all, hall, hget⟩ :=
    Stretch.declarations_beside hdeclarations (fun name => (Option.none_or).symm) hapart
  refine ⟨all, ?_, hget⟩
  rw [readAfter, hlex]
  exact hall

end Declarations

end PageEngine
