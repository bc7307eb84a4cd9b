import PageEngine.Proofs.Bytes.Mask
import PageEngine.Proofs.Declaration.Grammar

/-! Declaration texts that differ only in the texts of their comments. They have the same names,
types, keys and values but for the blanks that comments leave inside of them. So far as these are
the same too, the texts declare the same, or fail alike. -/

namespace PageEngine

/-- Two texts that are the same but for the numbers of blanks in a row. -/
inductive Text.SameButBlanks : List Char → List Char → Prop
  | nil : SameButBlanks [] []
  | char (c : Char) {cs cs' : List Char} (h : SameButBlanks cs cs') :
    SameButBlanks (c :: cs) (c :: cs')
  | blanks {gap gap' cs cs' : List Char} (hne : gap ≠ []) (hgap : ∀ c ∈ gap, isBlank c = true)
      (hne' : gap' ≠ []) (hgap' : ∀ c ∈ gap', isBlank c = true) (h : SameButBlanks cs cs') :
    SameButBlanks (gap ++ cs) (gap' ++ cs')

theorem Text.SameButBlanks.append_left {cs cs' : List Char} (h : SameButBlanks cs cs')
    (front : List Char) : SameButBlanks (front ++ cs) (front ++ cs') := by
  induction front with
  | nil => exact h
  | cons c front ih => exact .char c ih

namespace Lexeme

/-- Two lexemes that differ at most in the text of a comment. -/
inductive SameButText : Lexeme → Lexeme → Prop
  | plain (c : Char) : SameButText (.plain c) (.plain c)
  | literal (body : List Char) : SameButText (.literal body) (.literal body)
  | lineComment (text text' : List Char) : SameButText (.lineComment text) (.lineComment text')
  | blockComment (text text' : List Char) : SameButText (.blockComment text) (.blockComment text')

namespace SameButText

variable {l l' : Lexeme}

theorem eq_plain_iff (h : SameButText l l') (c : Char) : l = .plain c ↔ l' = .plain c := by
  cases h <;> simp

theorem isBlank_eq (h : SameButText l l') : l.isBlank = l'.isBlank := by
  cases h <;> rfl

theorem restored_eq (h : SameButText l l') (hmasked : l.masked = l'.masked) :
    l.restored = l'.restored := by
  cases h with
  | plain => rfl
  | literal => rfl
  | lineComment => exact hmasked
  | blockComment => exact hmasked

/-- Comments leave blanks of any number, but some. -/
theorem sameButBlanks (h : SameButText l l') {cs cs' : List Char}
    (hmore : Text.SameButBlanks cs cs') :
    Text.SameButBlanks (l.restored ++ cs) (l'.restored ++ cs') := by
  have hne (text : List Char) : ('/' :: text).flatMap blankOut ≠ [] :=
    List.cons_ne_nil ' ' (text.flatMap blankOut)
  cases h with
  | plain c => exact hmore.append_left _
  | literal body => exact hmore.append_left _
  | lineComment text text' =>
    exact .blanks (hne _) (fun _ => isBlank_of_mem_masked (l := .lineComment text) rfl) (hne _)
      (fun _ => isBlank_of_mem_masked (l := .lineComment text') rfl) hmore
  | blockComment text text' =>
    exact .blanks (hne _) (fun _ => isBlank_of_mem_masked (l := .blockComment text) rfl) (hne _)
      (fun _ => isBlank_of_mem_masked (l := .blockComment text') rfl) hmore

end SameButText

end Lexeme

namespace Stretch

open Lexeme (SameButText)

variable {c : Char} {ls ls' : List Lexeme}

/-! ### Cuts and blanks -/

theorem cut_same (h : List.Forall₂ SameButText ls ls') (c : Char) :
    (cut c ls = none ∧ cut c ls' = none) ∨
      ∃ before after before' after', cut c ls = some (before, after) ∧
        cut c ls' = some (before', after') ∧ List.Forall₂ SameButText before before' ∧
        List.Forall₂ SameButText after after' := by
  induction h with
  | nil => exact .inl ⟨rfl, rfl⟩
  | @cons l l' ls ls' hl hls ih =>
    rw [cut, cut]
    by_cases hplain : l = .plain c
    · rw [if_pos hplain, if_pos ((hl.eq_plain_iff c).1 hplain)]
      exact .inr ⟨_, _, _, _, rfl, rfl, .nil, hls⟩
    · rw [if_neg hplain, if_neg (mt (hl.eq_plain_iff c).2 hplain)]
      rcases ih with ⟨hnone, hnone'⟩ | ⟨before, after, before', after', hcut, hcut', hbefore, hafter⟩
      · exact .inl ⟨by rw [hnone, Option.map_none], by rw [hnone', Option.map_none]⟩
      · exact .inr ⟨_, _, _, _, by rw [hcut, Option.map_some], by rw [hcut', Option.map_some],
          .cons hl hbefore, hafter⟩

theorem dropWhile_same {p : Lexeme → Bool} (hp : ∀ l l', SameButText l l' → p l = p l')
    (h : List.Forall₂ SameButText ls ls') :
    List.Forall₂ SameButText (ls.dropWhile p) (ls'.dropWhile p) := by
  induction h with
  | nil => exact .nil
  | @cons l l' ls ls' hl hls ih =>
    rw [List.dropWhile_cons, List.dropWhile_cons, hp l l' hl]
    split
    · exact ih
    · exact .cons hl hls

theorem isSkipped_eq (separator : Option Char) {l l' : Lexeme} (h : SameButText l l') :
    isSkipped separator l = isSkipped separator l' := by
  have hseparator : (separator.map Lexeme.plain = some l) = (separator.map Lexeme.plain = some l') := by
    cases separator with
    | none => simp
    | some c => simpa [eq_comm] using h.eq_plain_iff c
  rw [isSkipped, isSkipped, h.isBlank_eq]
  simp only [hseparator]

theorem trimmed_same (separator : Option Char) (h : List.Forall₂ SameButText ls ls') :
    List.Forall₂ SameButText (trimmed separator ls) (trimmed separator ls') := by
  have hfront := dropWhile_same (fun _ _ => isSkipped_eq separator) h
  have hback := dropWhile_same (fun _ _ => SameButText.isBlank_eq)
    (List.forall₂_reverse_iff.2 hfront)
  exact List.forall₂_reverse_iff.2 hback

/-! ### Names, types, keys and values -/

/-- The name and the type in the head of a declaration. -/
def headFields (head : List Lexeme) : List (List Lexeme) :=
  match cut ':' (trimmed (some ';') head) with
  | none => []
  | some (name, typeName) => [trimmed none name, trimmed none typeName]

/-- The key and the value of a line. -/
def lineFields (line : List Lexeme) : List (List Lexeme) :=
  match cut '=' (trimmed none line) with
  | none => []
  | some (key, value) => [trimmed none key, trimmed none value]

/-- The keys and the values of a block. -/
def blockFields (block : List Lexeme) : List (List Lexeme) :=
  match _h : cut ';' block with
  | none => lineFields block
  | some (line, rest) => lineFields line ++ blockFields rest
termination_by block.length
decreasing_by
  rw [eq_of_cut _h, List.length_append, List.length_cons]
  omega

/-- The names, types, keys and values of declarations, one after another. -/
def fields (ls : List Lexeme) : List (List Lexeme) :=
  match _h : cut '\x7b' ls with
  | none => []
  | some (head, inside) =>
    match _h' : cut '\x7d' inside with
    | none => []
    | some (block, rest) => headFields head ++ (blockFields block ++ fields rest)
termination_by ls.length
decreasing_by exact length_lt_of_block _h _h'

variable {before after block rest : List Lexeme}

theorem blockFields_of_none (h : cut ';' ls = none) : blockFields ls = lineFields ls := by
  rw [blockFields]
  split
  · rfl
  · rename_i hsome
    cases h.symm.trans hsome

theorem blockFields_of_cut (h : cut ';' ls = some (before, after)) :
    blockFields ls = lineFields before ++ blockFields after := by
  rw [blockFields]
  split
  · rename_i hnone
    cases h.symm.trans hnone
  · rename_i hsome
    cases h.symm.trans hsome
    rfl

theorem fields_of_none (h : cut '\x7b' ls = none) : fields ls = [] := by
  rw [fields]
  split
  · rfl
  · rename_i hsome
    cases h.symm.trans hsome

theorem fields_of_unclosed (h : cut '\x7b' ls = some (before, after))
    (hclose : cut '\x7d' after = none) : fields ls = [] := by
  rw [fields]
  split
  · rfl
  · rename_i hsome
    cases h.symm.trans hsome
    split
    · rfl
    · rename_i hsome
      cases hclose.symm.trans hsome

theorem fields_of_block (h : cut '\x7b' ls = some (before, after))
    (hclose : cut '\x7d' after = some (block, rest)) :
    fields ls = headFields before ++ (blockFields block ++ fields rest) := by
  rw [fields]
  split
  · rename_i hnone
    cases h.symm.trans hnone
  · rename_i hsome
    cases h.symm.trans hsome
    split
    · rename_i hnone
      cases hclose.symm.trans hnone
    · rename_i hsome
      cases hclose.symm.trans hsome
      rfl

/-! ### They correspond -/

theorem headFields_same (h : List.Forall₂ SameButText ls ls') :
    List.Forall₂ (List.Forall₂ SameButText) (headFields ls) (headFields ls') := by
  rcases cut_same (trimmed_same (some ';') h) ':' with ⟨hnone, hnone'⟩ |
    ⟨name, typeName, name', typeName', hcut, hcut', hname, htype⟩
  · rw [headFields, headFields, hnone, hnone']
    exact .nil
  · rw [headFields, headFields, hcut, hcut']
    exact .cons (trimmed_same none hname) (.cons (trimmed_same none htype) .nil)

theorem lineFields_same (h : List.Forall₂ SameButText ls ls') :
    List.Forall₂ (List.Forall₂ SameButText) (lineFields ls) (lineFields ls') := by
  rcases cut_same (trimmed_same none h) '=' with ⟨hnone, hnone'⟩ |
    ⟨key, value, key', value', hcut, hcut', hkey, hvalue⟩
  · rw [lineFields, lineFields, hnone, hnone']
    exact .nil
  · rw [lineFields, lineFields, hcut, hcut']
    exact .cons (trimmed_same none hkey) (.cons (trimmed_same none hvalue) .nil)

theorem blockFields_same (h : List.Forall₂ SameButText ls ls') :
    List.Forall₂ (List.Forall₂ SameButText) (blockFields ls) (blockFields ls') := by
  induction hn : ls.length using Nat.strongRecOn generalizing ls ls' with
  | ind n ih =>
    rcases cut_same h ';' with ⟨hnone, hnone'⟩ |
      ⟨line, rest, line', rest', hcut, hcut', hline, hrest⟩
    · rw [blockFields_of_none hnone, blockFields_of_none hnone']
      exact lineFields_same h
    · have hlength : rest.length < n := by
        rw [← hn, eq_of_cut hcut, List.length_append, List.length_cons]
        omega
      rw [blockFields_of_cut hcut, blockFields_of_cut hcut']
      exact List.rel_append (lineFields_same hline) (ih _ hlength hrest rfl)

theorem fields_same (h : List.Forall₂ SameButText ls ls') :
    List.Forall₂ (List.Forall₂ SameButText) (fields ls) (fields ls') := by
  induction hn : ls.length using Nat.strongRecOn generalizing ls ls' with
  | ind n ih =>
    rcases cut_same h '\x7b' with ⟨hnone, hnone'⟩ |
      ⟨head, inside, head', inside', hopen, hopen', hhead, hinside⟩
    · rw [fields_of_none hnone, fields_of_none hnone']
      exact .nil
    rcases cut_same hinside '\x7d' with ⟨hnone, hnone'⟩ |
      ⟨block, rest, block', rest', hclose, hclose', hblock, hrest⟩
    · rw [fields_of_unclosed hopen hnone, fields_of_unclosed hopen' hnone']
      exact .nil
    · rw [fields_of_block hopen hclose, fields_of_block hopen' hclose']
      exact List.rel_append (headFields_same hhead) (List.rel_append (blockFields_same hblock)
        (ih _ (hn ▸ length_lt_of_block hopen hclose) hrest rfl))

/-- What is restored of a name, a type, a key or a value is the same but for blanks. -/
theorem restored_same (h : List.Forall₂ SameButText ls ls') :
    Text.SameButBlanks (ls.flatMap Lexeme.restored) (ls'.flatMap Lexeme.restored) := by
  induction h with
  | nil => exact .nil
  | cons hl _ ih => exact hl.sameButBlanks ih

/-! ### The same blanks -/

/-- Comments leave the same blanks. -/
def BlankedAlike (ls ls' : List Lexeme) : Prop :=
  List.Forall₂ (fun l l' => l.masked = l'.masked) ls ls'

theorem flatMap_same (h : List.Forall₂ SameButText ls ls') (hblanks : BlankedAlike ls ls') :
    ls.flatMap Lexeme.masked = ls'.flatMap Lexeme.masked ∧
      ls.flatMap Lexeme.restored = ls'.flatMap Lexeme.restored := by
  induction h with
  | nil => exact ⟨rfl, rfl⟩
  | cons hl _ ih =>
    obtain ⟨hmasked, hrest⟩ := List.forall₂_cons.1 hblanks
    obtain ⟨ihmasked, ihrestored⟩ := ih hrest
    simp only [List.flatMap_cons, hmasked, ihmasked, hl.restored_eq hmasked, ihrestored, and_self]

theorem eq_literal_iff (h : List.Forall₂ SameButText ls ls') (body : List Char) :
    ls = [.literal body] ↔ ls' = [.literal body] := by
  constructor
  · rintro rfl
    cases h with | cons hl hnil => cases hl; cases hnil; rfl
  · rintro rfl
    cases h with | cons hl hnil => cases hl; cases hnil; rfl

theorem writtenValue_same (h : List.Forall₂ SameButText ls ls') (hblanks : BlankedAlike ls ls') :
    writtenValue ls = writtenValue ls' := by
  by_cases hliteral : ∃ body, ls = [.literal body]
  · obtain ⟨body, hbody⟩ := hliteral
    rw [hbody, (eq_literal_iff h body).1 hbody]
  · have hne (body : List Char) : ls ≠ [.literal body] := fun heq => hliteral ⟨body, heq⟩
    rw [writtenValue_of_ne hne, writtenValue_of_ne fun body heq =>
      hne body ((eq_literal_iff h body).2 heq), (flatMap_same h hblanks).2]

theorem isEmpty_same (h : List.Forall₂ SameButText ls ls') : ls.isEmpty = ls'.isEmpty := by
  cases h <;> rfl

/-- A line says the same if its key and its value do. -/
theorem outcome_binding?_same (h : List.Forall₂ SameButText ls ls')
    (hblanks : List.Forall₂ BlankedAlike (lineFields ls) (lineFields ls')) (offset offset' : Nat) :
    outcome (binding? ⟨offset, ls⟩) = outcome (binding? ⟨offset', ls'⟩) := by
  have htrim := trimmed_same none h
  rw [binding?_eq, binding?_eq]
  simp only [cutAt_eq_map, lexemes_trim, restored, isEmpty_same htrim]
  split
  · rfl
  rcases cut_same htrim '=' with ⟨hnone, hnone'⟩ |
    ⟨key, value, key', value', hcut, hcut', hkey, hvalue⟩
  · rw [hnone, hnone']
    rfl
  · rw [lineFields, lineFields, hcut, hcut'] at hblanks
    obtain ⟨hkeyBlanks, hrest⟩ := List.forall₂_cons.1 hblanks
    obtain ⟨hvalueBlanks, -⟩ := List.forall₂_cons.1 hrest
    have hkey := trimmed_same none hkey
    have hvalue := trimmed_same none hvalue
    simp only [hcut, hcut', Option.map_some, isEmpty_same hkey, isEmpty_same hvalue,
      (flatMap_same hkey hkeyBlanks).2, writtenValue_same hvalue hvalueBlanks]
    split
    · rfl
    · split <;> rfl

theorem forall₂_append_inv {α : Type} {R : α → α → Prop} {xs xs' ys ys' : List α}
    (hlength : xs.length = xs'.length) (h : List.Forall₂ R (xs ++ ys) (xs' ++ ys')) :
    List.Forall₂ R xs xs' ∧ List.Forall₂ R ys ys' := by
  induction xs generalizing xs' with
  | nil =>
    rw [List.eq_nil_of_length_eq_zero hlength.symm] at h ⊢
    exact ⟨.nil, h⟩
  | cons x xs ih =>
    cases xs' with
    | nil => cases hlength
    | cons x' xs' =>
      obtain ⟨hx, hrest⟩ := List.forall₂_cons.1 h
      obtain ⟨hxs, hys⟩ := ih (Nat.succ.inj hlength) hrest
      exact ⟨.cons hx hxs, hys⟩

theorem outcome_bindings_same (h : List.Forall₂ SameButText ls ls')
    (hblanks : List.Forall₂ BlankedAlike (blockFields ls) (blockFields ls')) (found : Bindings)
    (offset offset' : Nat) : outcome (bindingsOf found (pieces ';' ⟨offset, ls⟩)) =
      outcome (bindingsOf found (pieces ';' ⟨offset', ls'⟩)) := by
  induction hn : ls.length using Nat.strongRecOn generalizing ls ls' found offset offset' with
  | ind n ih =>
    rcases cut_same h ';' with ⟨hnone, hnone'⟩ |
      ⟨line, rest, line', rest', hcut, hcut', hline, hrest⟩
    · rw [blockFields_of_none hnone, blockFields_of_none hnone'] at hblanks
      rw [pieces_of_none hnone, pieces_of_none hnone', bindingsOf_cons, bindingsOf_cons]
      refine outcome_bind (outcome_binding?_same h hblanks _ _) fun entry? => ?_
      cases entry? <;> rfl
    · have hlength : rest.length < n := by
        rw [← hn, eq_of_cut hcut, List.length_append, List.length_cons]
        omega
      rw [blockFields_of_cut hcut, blockFields_of_cut hcut'] at hblanks
      obtain ⟨hlineBlanks, hrestBlanks⟩ :=
        forall₂_append_inv (lineFields_same hline).length_eq hblanks
      rw [pieces_of_cut hcut, pieces_of_cut hcut', bindingsOf_cons, bindingsOf_cons]
      refine outcome_bind (outcome_binding?_same hline hlineBlanks _ _) fun entry? => ?_
      cases entry? with
      | none => exact ih _ hlength hrest hrestBlanks _ _ _ rfl
      | some entry => exact ih _ hlength hrest hrestBlanks _ _ _ rfl

/-- A declaration is the same if what it says is. -/
theorem outcome_declaration_same {head head' block block' : List Lexeme}
    (hhead : List.Forall₂ SameButText head head') (hblock : List.Forall₂ SameButText block block')
    (hheadBlanks : List.Forall₂ BlankedAlike (headFields head) (headFields head'))
    (hblockBlanks : List.Forall₂ BlankedAlike (blockFields block) (blockFields block'))
    (start start' offset offset' : Nat) :
    outcome (declaration (trimHeader ⟨start, head⟩) ⟨offset, block⟩) =
      outcome (declaration (trimHeader ⟨start', head'⟩) ⟨offset', block'⟩) := by
  unfold declaration
  simp only [cutAt_eq_map, lexemes_trim, lexemes_trimHeader, masked]
  rcases cut_same (trimmed_same (some ';') hhead) ':' with ⟨hnone, hnone'⟩ |
    ⟨name, typeName, name', typeName', hcut, hcut', hname, htype⟩
  · rw [hnone, hnone']
    rfl
  · rw [headFields, headFields, hcut, hcut'] at hheadBlanks
    obtain ⟨hnameBlanks, hrest⟩ := List.forall₂_cons.1 hheadBlanks
    obtain ⟨htypeBlanks, -⟩ := List.forall₂_cons.1 hrest
    have hname := trimmed_same none hname
    have htype := trimmed_same none htype
    simp only [hcut, hcut', Option.map_some, isEmpty_same hname, isEmpty_same htype,
      (flatMap_same hname hnameBlanks).1, (flatMap_same htype htypeBlanks).1]
    split
    · rfl
    split
    · rfl
    · rw [outcome_map, outcome_map, outcome_bindings_same hblock hblockBlanks [] offset offset']

theorem outcome_declarations_same (h : List.Forall₂ SameButText ls ls')
    (hblanks : List.Forall₂ BlankedAlike (fields ls) (fields ls')) (found : Declarations)
    (offset offset' : Nat) :
    outcome (declarations found ⟨offset, ls⟩) = outcome (declarations found ⟨offset', ls'⟩) := by
  induction hn : ls.length using Nat.strongRecOn generalizing ls ls' found offset offset' with
  | ind n ih =>
    rcases cut_same h '\x7b' with ⟨hnone, hnone'⟩ |
      ⟨head, inside, head', inside', hopen, hopen', hhead, hinside⟩
    · have hempty := isEmpty_same (trimmed_same (some ';') h)
      rw [declarations_of_none hnone, declarations_of_none hnone']
      simp only [lexemes_trimHeader, hempty]
      split <;> rfl
    rcases cut_same hinside '\x7d' with ⟨hnone, hnone'⟩ |
      ⟨block, rest, block', rest', hclose, hclose', hblock, hrest⟩
    · rw [declarations_of_unclosed hopen hnone, declarations_of_unclosed hopen' hnone']
      rfl
    · rw [fields_of_block hopen hclose, fields_of_block hopen' hclose'] at hblanks
      obtain ⟨hheadBlanks, hlater⟩ :=
        forall₂_append_inv (headFields_same hhead).length_eq hblanks
      obtain ⟨hblockBlanks, hrestBlanks⟩ :=
        forall₂_append_inv (blockFields_same hblock).length_eq hlater
      rw [declarations_of_block hopen hclose, declarations_of_block hopen' hclose']
      refine outcome_bind
        (outcome_declaration_same hhead hblock hheadBlanks hblockBlanks _ _ _ _) fun d => ?_
      split
      · rfl
      · exact ih _ (hn ▸ length_lt_of_block hopen hclose) hrest hrestBlanks _ _ _ rfl

end Stretch

namespace Declarations

open Lexeme (LexedAs SameButText)
open Stretch (BlankedAlike fields)

theorem kinds_of_lexedAs {source : String} {ls : List Lexeme} {stop : Option FormatErrorKind}
    (h : LexedAs source.toList ls stop) : kinds source =
      match stop with
      | none => outcome (Stretch.declarations [] ⟨0, ls⟩)
      | some kind => .error kind := by
  rw [kinds, parse, read, Lexeme.lex, h.lexFrom_eq]
  cases stop with
  | none =>
    dsimp only [Lexeme.lexed]
    cases Stretch.declarations [] ⟨0, ls⟩ <;> rfl
  | some kind => rfl

/-- Between texts that differ only in the texts of their comments, names, types, keys and values
differ only in numbers of blanks. The texts declare the same, or fail with errors of one kind, if
something is not closed or if comments inside of these leave the same blanks. -/
theorem comments_leave_blanks {source source' : String} {ls ls' : List Lexeme}
    {stop : Option FormatErrorKind} (h : LexedAs source.toList ls stop)
    (h' : LexedAs source'.toList ls' stop) (hsame : List.Forall₂ SameButText ls ls') :
    List.Forall₂ (fun field field' => Text.SameButBlanks (field.flatMap Lexeme.restored)
        (field'.flatMap Lexeme.restored)) (fields ls) (fields ls') ∧
      (stop ≠ none ∨ List.Forall₂ BlankedAlike (fields ls) (fields ls') →
        kinds source = kinds source') := by
  have hfields := Stretch.fields_same hsame
  refine ⟨hfields.imp fun _ _ => Stretch.restored_same, ?_⟩
  rw [kinds_of_lexedAs h, kinds_of_lexedAs h']
  rintro (hstop | hblanks)
  · cases stop with
    | none => exact absurd rfl hstop
    | some kind => rfl
  · cases stop with
    | none => exact Stretch.outcome_declarations_same hsame hblanks [] 0 0
    | some kind => rfl

/-- A declaration with a comment inside of its value, and one behind the line. -/
def commentedBlock (inside behind : List Char) : List Lexeme :=
  "a:T\x7bk=v".toList.map .plain ++ .blockComment inside :: .plain 'w' :: .plain ';' ::
    .lineComment behind :: "\n\x7d".toList.map .plain

theorem same_commentedBlock (inside inside' behind behind' : List Char) :
    List.Forall₂ SameButText (commentedBlock inside behind) (commentedBlock inside' behind') := by
  have hplain (cs : List Char) : List.Forall₂ SameButText (cs.map .plain) (cs.map .plain) := by
    induction cs with
    | nil => exact .nil
    | cons c cs ih => exact .cons (.plain c) ih
  exact List.rel_append (hplain _) (.cons (.blockComment ..) (.cons (.plain _) (.cons (.plain _)
    (.cons (.lineComment ..) (hplain _)))))

/-- The comment inside of the value keeps its length, and the one behind the line does not. -/
theorem comments_leave_blanks_commentedBlock :
    (LexedAs "a:T\x7bk=v/*;*/w;//\x7d\n\x7d".toList (commentedBlock [';'] ['\x7d']) none ∧
      LexedAs "a:T\x7bk=v/*=*/w;//;\"\n\x7d".toList (commentedBlock ['='] [';', '"']) none ∧
      List.Forall₂ SameButText (commentedBlock [';'] ['\x7d']) (commentedBlock ['='] [';', '"'])) ∧
    kinds "a:T\x7bk=v/*;*/w;//\x7d\n\x7d" = kinds "a:T\x7bk=v/*=*/w;//;\"\n\x7d" := by
  have h : LexedAs "a:T\x7bk=v/*;*/w;//\x7d\n\x7d".toList (commentedBlock [';'] ['\x7d']) none :=
    Lexeme.lexedAs_of_lex (by decide +kernel)
  have h' : LexedAs "a:T\x7bk=v/*=*/w;//;\"\n\x7d".toList (commentedBlock ['='] [';', '"']) none :=
    Lexeme.lexedAs_of_lex (by decide +kernel)
  have hsame := same_commentedBlock [';'] ['='] ['\x7d'] [';', '"']
  have hfields : fields (commentedBlock [';'] ['\x7d']) =
      [[.plain 'a'], [.plain 'T'], [.plain 'k'], [.plain 'v', .blockComment [';'], .plain 'w']] := by
    decide +kernel
  have hfields' : fields (commentedBlock ['='] [';', '"']) =
      [[.plain 'a'], [.plain 'T'], [.plain 'k'], [.plain 'v', .blockComment ['='], .plain 'w']] := by
    decide +kernel
  refine ⟨⟨h, h', hsame⟩, (comments_leave_blanks h h' hsame).2 (.inr ?_)⟩
  rw [hfields, hfields']
  simp [BlankedAlike, Lexeme.masked, Lexeme.written]
  decide

end Declarations

end PageEngine
