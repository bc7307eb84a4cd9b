import PageEngine.Proofs.Declaration.Block
import PageEngine.Proofs.Declaration.Union

/-! Declarations read back from their written form. A text is written as tokens, names, marks and
values, with gaps of blanks and comments between them. A gap may hold anything that a comment
can, quotes and braces included, and a value anything but what would end it. -/

namespace PageEngine

open Text (byteLength byteLength_append)

/-! ### Gaps and tokens -/

/-- Blanks and comments. A line comment ends with its line. -/
inductive Gap : List Char → Prop
  | nil : Gap []
  | blank {c : Char} {rest : List Char} (hc : Text.isBlank c = true) (hrest : Gap rest) :
    Gap (c :: rest)
  | lineComment {text rest : List Char} (htext : '\n' ∉ text) (hrest : Gap rest) :
    Gap ('/' :: '/' :: (text ++ '\n' :: rest))
  | blockComment {text rest : List Char} (htext : ¬['*', '/'] <:+: text) (hrest : Gap rest) :
    Gap ('/' :: '*' :: (text ++ '*' :: '/' :: rest))

/-- A gap behind a token: a comment in it does not touch the token. -/
structure SetOff (cs : List Char) : Prop where
  gap : Gap cs
  head : ∀ c ∈ cs.head?, Text.isBlank c = true

/-- A text of tokens with gaps before, between and behind them. -/
def Tokens : List (List Char) → List Char → Prop
  | [], text => SetOff text
  | token :: tokens, text =>
    ∃ gap rest, SetOff gap ∧ text = gap ++ (token ++ rest) ∧ Tokens tokens rest

/-- A name, a type or a key: nothing in it is blank, parts declarations, or begins a literal or a
comment. -/
structure IsWord (cs : List Char) : Prop where
  ne_nil : cs ≠ []
  chars : ∀ c ∈ cs, Text.isBlank c = false ∧ c ∉ Stretch.marks ∧ c ≠ '"' ∧ c ≠ '/'

/-- The text of a bare value: nothing in it ends the value or begins a literal or a comment, and no
blanks are around it. -/
structure IsBareText (cs : List Char) : Prop where
  ne_nil : cs ≠ []
  head : ∀ c ∈ cs.head?, Text.isBlank c = false
  last : ∀ c ∈ cs.getLast?, Text.isBlank c = false
  chars : ∀ c ∈ cs, c ≠ ';' ∧ c ≠ '\x7d' ∧ c ≠ '"'
  noLineComment : ¬['/', '/'] <:+: cs
  noBlockComment : ¬['/', '*'] <:+: cs

/-- A value as it is written in a declaration; one without a text cannot be. -/
inductive BindingValue.WrittenAs : BindingValue → List Char → Prop
  | quoted {body : List Char} (hbody : Unquoted '"' body) :
    WrittenAs (.quoted (String.ofList ('"' :: (body ++ ['"'])))) ('"' :: (body ++ ['"']))
  | bare {text : List Char} (htext : IsBareText text) : WrittenAs (.bare (String.ofList text)) text

/-- Bindings one after another, each with a semicolon behind it; that behind the last may be left
out. -/
inductive LinesAre : List (String × BindingValue) → List (List Char) → Prop
  | nil : LinesAre [] []
  | last {key : String} {value : BindingValue} {text : List Char} (hkey : IsWord key.toList)
    (hvalue : value.WrittenAs text) : LinesAre [(key, value)] [key.toList, ['='], text]
  | cons {key : String} {value : BindingValue} {text : List Char}
    {entries : List (String × BindingValue)} {tokens : List (List Char)}
    (hkey : IsWord key.toList) (hvalue : value.WrittenAs text) (hrest : LinesAre entries tokens) :
    LinesAre ((key, value) :: entries) (key.toList :: ['='] :: text :: [';'] :: tokens)

/-- Declarations one after another, with stray semicolons between them. The bindings of each are
written in any order. -/
inductive BlocksAre : List Declaration → List (List Char) → Prop
  | nil : BlocksAre [] []
  | stray {ds : List Declaration} {tokens : List (List Char)} (h : BlocksAre ds tokens) :
    BlocksAre ds ([';'] :: tokens)
  | cons {d : Declaration} {entries : List (String × BindingValue)} {ds : List Declaration}
    {lines tokens : List (List Char)} (hname : IsWord d.name.toList)
    (htype : IsWord d.typeName.toList) (hordered : Dictionary.Ordered d.bindings)
    (hentries : entries.Perm d.bindings) (hlines : LinesAre entries lines)
    (hrest : BlocksAre ds tokens) :
    BlocksAre (d :: ds)
      ([d.name.toList, [':'], d.typeName.toList] ++ ['\x7b'] :: (lines ++ ['\x7d'] :: tokens))

theorem Gap.of_blanks {cs : List Char} (h : ∀ c ∈ cs, Text.isBlank c = true) : Gap cs := by
  induction cs with
  | nil => exact .nil
  | cons c cs ih =>
    obtain ⟨hc, hcs⟩ := List.forall_mem_cons.1 h
    exact .blank hc (ih hcs)

theorem SetOff.of_blanks {cs : List Char} (h : ∀ c ∈ cs, Text.isBlank c = true) : SetOff cs :=
  ⟨.of_blanks h, fun c hc => h c (List.mem_of_mem_head? hc)⟩

theorem Tokens.blanks {gap token rest : List Char} {tokens : List (List Char)}
    (hgap : ∀ c ∈ gap, Text.isBlank c = true) (h : Tokens tokens rest) :
    Tokens (token :: tokens) (gap ++ (token ++ rest)) := ⟨gap, rest, .of_blanks hgap, rfl, h⟩

namespace IsIdentifier

/-- Letters, digits, underscores and hyphens make up a word. -/
theorem isWord {cs : List Char} (h : IsIdentifier cs) : IsWord cs := by
  refine ⟨h.ne_nil, fun c hc => ⟨not_isBlank_of_isIdentifierChar (h.chars c hc), ?_, ?_, ?_⟩⟩
  · intro hmark
    exact h.solid.notMark c hmark (List.mem_map_of_mem hc)
  · rintro rfl
    cases h.chars _ hc
  · rintro rfl
    cases h.chars _ hc

end IsIdentifier

/-! ### Lexemes of gaps and tokens -/

namespace Lexeme

theorem takeBlock_of_text {text : List Char} (h : ¬['*', '/'] <:+: text) (rest : List Char) :
    takeBlock (text ++ '*' :: '/' :: rest) = some (text, rest) := by
  induction text with
  | nil => rfl
  | cons c text ih =>
    have hlater := ih fun hpart => h (hpart.trans (List.suffix_cons c text).isInfix)
    have hopen : ∀ more, c = '*' → text ++ '*' :: '/' :: rest = '/' :: more → False := by
      intro more hc hslash
      cases text with
      | nil => cases (List.cons.inj hslash).1
      | cons x text =>
        obtain rfl : x = '/' := (List.cons.inj hslash).1
        exact h ⟨[], text, by rw [hc]; rfl⟩
    rw [List.cons_append, takeBlock.eq_3 _ _ hopen, hlater]
    rfl

/-- A line comment goes up to the end of its line, or of the text. -/
theorem takeWhile_line {text rest : List Char} (htext : '\n' ∉ text)
    (hend : ∀ c ∈ rest.head?, c = '\n') : (text ++ rest).takeWhile (· != '\n') = text ∧
      (text ++ rest).dropWhile (· != '\n') = rest := by
  have hnot : ∀ c ∈ text, (c != '\n') = true := fun c hc => bne_iff_ne.2 fun heq => htext (heq ▸ hc)
  rw [List.takeWhile_append_of_pos hnot, List.dropWhile_append_of_pos hnot]
  cases rest with
  | nil => simp
  | cons c rest =>
    obtain rfl := hend c rfl
    simp

namespace Lexes

theorem lineComment {text : List Char} (h : '\n' ∉ text) :
    Lexes ('/' :: '/' :: (text ++ ['\n'])) [.lineComment text, .plain '\n'] := by
  intro offset rest
  have hend : ∀ c ∈ ('\n' :: rest).head?, c = '\n' := by simp
  obtain ⟨htake, hdrop⟩ := takeWhile_line h hend
  have hnewline : StandsPlain '\n' rest := ⟨by decide, fun h => absurd h (by decide)⟩
  have hsize : offset + byteLength ('/' :: '/' :: (text ++ ['\n'])) =
      offset + size (.lineComment text) + '\n'.utf8Size := by
    simp only [size, written, Text.byteLength_cons, Text.byteLength_append, Text.byteLength_nil]
    omega
  rw [List.cons_append, List.cons_append, List.append_assoc, List.singleton_append, lexFrom_line,
    htake, hdrop, lexFrom_plain hnewline, hsize]
  cases lexFrom _ rest <;> rfl

theorem blockComment {text : List Char} (h : ¬['*', '/'] <:+: text) :
    Lexes ('/' :: '*' :: (text ++ ['*', '/'])) [.blockComment text] := by
  intro offset rest
  have htaken : takeBlock (text ++ ['*', '/'] ++ rest) = some (text, rest) := by
    rw [List.append_assoc]
    exact takeBlock_of_text h rest
  rw [List.cons_append, List.cons_append, lexFrom_block htaken]
  rfl

end Lexes

/-- The text has these lexemes if what follows it makes no comment out of a slash at its end. -/
def LexesBefore (cs : List Char) (ls : List Lexeme) : Prop :=
  ∀ offset rest, (∀ x ∈ rest.head?, x ≠ '*' ∧ x ≠ '/') → lexFrom offset (cs ++ rest) =
    (lexFrom (offset + byteLength cs) rest).map (ls ++ ·)

namespace LexesBefore

variable {cs ds : List Char} {ls ms : List Lexeme}

theorem append (h : LexesBefore cs ls) (h' : Lexes ds ms) (hne : ds ≠ [])
    (hds : ∀ x ∈ ds.head?, x ≠ '*' ∧ x ≠ '/') : Lexes (cs ++ ds) (ls ++ ms) := by
  intro offset rest
  have hhead : ∀ x ∈ (ds ++ rest).head?, x ≠ '*' ∧ x ≠ '/' := by
    rw [List.head?_append_of_ne_nil _ hne]
    exact hds
  rw [List.append_assoc, h offset _ hhead, h', byteLength_append, Nat.add_assoc]
  cases lexFrom _ rest <;> simp [Except.map]

/-- A text in which neither a literal nor a comment begins. -/
theorem plains (hquote : '"' ∉ cs) (hline : ¬['/', '/'] <:+: cs) (hblock : ¬['/', '*'] <:+: cs) :
    LexesBefore cs (cs.map .plain) := by
  induction cs with
  | nil => exact fun offset rest _ => Lexes.nil offset rest
  | cons c cs ih =>
    intro offset rest hrest
    have hlater {part : List Char} (h : ¬part <:+: c :: cs) : ¬part <:+: cs := fun hpart =>
      h (hpart.trans (List.suffix_cons c cs).isInfix)
    obtain ⟨hc, hcs⟩ := not_or.1 (List.mem_cons.not.1 hquote)
    have hplain : StandsPlain c (cs ++ rest) := by
      refine ⟨Ne.symm hc, fun hslash x hx => ?_⟩
      cases cs with
      | nil => exact hrest x hx
      | cons y ys =>
        cases hx
        refine ⟨?_, ?_⟩
        · rintro rfl
          exact hblock ⟨[], ys, by rw [hslash]; rfl⟩
        · rintro rfl
          exact hline ⟨[], ys, by rw [hslash]; rfl⟩
    rw [List.cons_append, lexFrom_plain hplain, ih hcs (hlater hline) (hlater hblock) _ _ hrest,
      Text.byteLength_cons, Nat.add_assoc]
    cases lexFrom _ rest <;> rfl

end LexesBefore

end Lexeme

/-- The lexemes of a gap are blank. -/
theorem Gap.lexes {cs : List Char} (h : Gap cs) :
    ∃ ls, Lexeme.Lexes cs ls ∧ ∀ l ∈ ls, l.isBlank = true := by
  induction h with
  | nil => exact ⟨[], .nil, List.forall_mem_nil _⟩
  | @blank c rest hc _ ih =>
    obtain ⟨ls, hls, hblank⟩ := ih
    have hfirst : Lexeme.Lexes [c] [.plain c] := .blanks (List.forall_mem_singleton.2 hc)
    exact ⟨_, hfirst.append hls, List.forall_mem_cons.2 ⟨hc, hblank⟩⟩
  | @lineComment text rest htext _ ih =>
    obtain ⟨ls, hls, hblank⟩ := ih
    have hall := (Lexeme.Lexes.lineComment htext).append hls
    rw [List.cons_append, List.cons_append, List.append_assoc] at hall
    refine ⟨_, hall, ?_⟩
    simp only [List.cons_append, List.nil_append, List.forall_mem_cons]
    exact ⟨rfl, rfl, hblank⟩
  | @blockComment text rest htext _ ih =>
    obtain ⟨ls, hls, hblank⟩ := ih
    have hall := (Lexeme.Lexes.blockComment htext).append hls
    rw [List.cons_append, List.cons_append, List.append_assoc] at hall
    exact ⟨_, hall, List.forall_mem_cons.2 ⟨rfl, hblank⟩⟩

/-- A token is one literal, or its characters stand for themselves. -/
def tokenLexemes : List Char → List Lexeme
  | '"' :: cs => [.literal cs.dropLast]
  | cs => cs.map .plain

theorem tokenLexemes_quoted (body : List Char) :
    tokenLexemes ('"' :: (body ++ ['"'])) = [.literal body] := by
  rw [tokenLexemes, List.dropLast_concat]

theorem tokenLexemes_plain {cs : List Char} (h : '"' ∉ cs) : tokenLexemes cs = cs.map .plain := by
  unfold tokenLexemes
  split
  · exact absurd (List.mem_cons_self ..) h
  · rfl

/-- Each token has its lexemes, at least before the token that follows it. -/
def Lexable : List (List Char) → Prop
  | [] => True
  | token :: tokens => (Lexeme.Lexes token (tokenLexemes token) ∨
      Lexeme.LexesBefore token (tokenLexemes token) ∧ ∃ next ∈ tokens.head?, ∃ c ∈ next.head?,
        c ≠ '*' ∧ c ≠ '/') ∧ Lexable tokens

/-- What follows a token begins with a blank, or as the next token does. -/
theorem Tokens.head_of_next {tokens : List (List Char)} {text next : List Char} {c : Char}
    (h : Tokens tokens text) (hnext : next ∈ tokens.head?) (hc : c ∈ next.head?) :
    ∃ x ∈ text.head?, Text.isBlank x = true ∨ x = c := by
  cases tokens with
  | nil => cases hnext
  | cons token tokens =>
    cases hnext
    obtain ⟨gap, rest, hgap, rfl, -⟩ := h
    cases gap with
    | nil =>
      rw [List.nil_append]
      exact ⟨c, List.mem_head?_append_of_mem_head? hc, .inr rfl⟩
    | cons b gap => exact ⟨b, rfl, .inl (hgap.head b rfl)⟩

/-- The lexemes of tokens with gaps around them are those of the tokens, with blanks around them. -/
theorem Tokens.lexes {tokens : List (List Char)} {text : List Char} (h : Tokens tokens text)
    (htokens : Lexable tokens) : ∃ ls, Lexeme.Lexes text ls ∧
      Spaced Lexeme.isBlank (tokens.map tokenLexemes) ls := by
  induction tokens generalizing text with
  | nil => exact SetOff.gap h |>.lexes
  | cons token tokens ih =>
    obtain ⟨gap, rest, hgap, rfl, hrest⟩ := h
    obtain ⟨blanks, hblanks, hblank⟩ := hgap.gap.lexes
    obtain ⟨ls, hls, hspaced⟩ := ih hrest htokens.2
    have htoken : Lexeme.Lexes (token ++ rest) (tokenLexemes token ++ ls) := by
      rcases htokens.1 with htoken | ⟨htoken, next, hnext, c, hc, hsafe⟩
      · exact htoken.append hls
      · obtain ⟨x, hx, hcases⟩ := hrest.head_of_next hnext hc
        have hne : rest ≠ [] := fun hnil => by
          rw [hnil] at hx
          cases hx
        refine htoken.append hls hne fun y hy => ?_
        cases hx.symm.trans hy
        rcases hcases with hblank | rfl
        · refine ⟨?_, ?_⟩ <;> rintro rfl <;> exact absurd hblank (by decide)
        · exact hsafe
    exact ⟨_, hblanks.append htoken, blanks, ls, hblank, rfl, hspaced⟩

/-! ### Words and values -/

namespace IsWord

variable {cs : List Char}

theorem lexemes_eq (h : IsWord cs) : tokenLexemes cs = cs.map .plain :=
  tokenLexemes_plain fun hmem => (h.chars _ hmem).2.2.1 rfl

theorem lexes (h : IsWord cs) : Lexeme.Lexes cs (tokenLexemes cs) := by
  rw [h.lexemes_eq]
  exact .plains fun c hc => (h.chars c hc).2.2

theorem solid (h : IsWord cs) : Stretch.Solid (tokenLexemes cs) := by
  rw [h.lexemes_eq]
  refine ⟨by simpa using h.ne_nil, fun l hl => ?_, fun c hmark hmem => ?_⟩
  · obtain ⟨c, hc, rfl⟩ := List.mem_map.1 hl
    exact (h.chars c hc).1
  · obtain ⟨d, hd, heq⟩ := List.mem_map.1 hmem
    cases heq
    exact (h.chars c hd).2.1 hmark

theorem masked (h : IsWord cs) : (tokenLexemes cs).flatMap Lexeme.masked = cs := by
  rw [h.lexemes_eq, masked_plains]

theorem restored (h : IsWord cs) : (tokenLexemes cs).flatMap Lexeme.restored = cs := by
  rw [h.lexemes_eq, restored_plains]

end IsWord

/-- A mark is a token of its own. -/
theorem lexes_mark {c : Char} (hc : c ∈ Stretch.marks) : Lexeme.Lexes [c] (tokenLexemes [c]) ∧
    tokenLexemes [c] = [.plain c] := by
  have hne : c ≠ '"' ∧ c ≠ '/' := by
    refine ⟨?_, ?_⟩ <;> rintro rfl <;> exact absurd hc (by decide)
  have hlexemes : tokenLexemes [c] = [.plain c] :=
    tokenLexemes_plain fun hmem => hne.1 (List.mem_singleton.1 hmem).symm
  exact ⟨hlexemes ▸ .plain hne.1 hne.2, hlexemes⟩

namespace BindingValue.WrittenAs

variable {value : BindingValue} {text : List Char}

theorem lexes (h : value.WrittenAs text) : Lexeme.Lexes text (tokenLexemes text) ∨
    Lexeme.LexesBefore text (tokenLexemes text) := by
  cases h with
  | quoted hbody =>
    rw [tokenLexemes_quoted]
    exact .inl (.literal hbody)
  | bare htext =>
    have hquote : '"' ∉ text := fun hmem => (htext.chars _ hmem).2.2 rfl
    rw [tokenLexemes_plain hquote]
    exact .inr (.plains hquote htext.noLineComment htext.noBlockComment)

theorem tight (h : value.WrittenAs text) : Stretch.Tight (tokenLexemes text) := by
  cases h with
  | @quoted body _ =>
    rw [tokenLexemes_quoted]
    exact .of_forall (List.cons_ne_nil _ _) (List.forall_mem_singleton.2 rfl)
  | bare htext =>
    rw [tokenLexemes_plain fun hmem => (htext.chars _ hmem).2.2 rfl]
    refine ⟨by simpa using htext.ne_nil, fun l hl => ?_, fun l hl => ?_⟩
    · rw [List.head?_map] at hl
      obtain ⟨c, hc, rfl⟩ := Option.map_eq_some_iff.1 hl
      exact htext.head c hc
    · rw [List.getLast?_map] at hl
      obtain ⟨c, hc, rfl⟩ := Option.map_eq_some_iff.1 hl
      exact htext.last c hc

theorem not_mem (h : value.WrittenAs text) {c : Char} (hc : c = ';' ∨ c = '\x7d') :
    .plain c ∉ tokenLexemes text := by
  cases h with
  | quoted =>
    rw [tokenLexemes_quoted]
    exact fun hmem => nomatch List.mem_singleton.1 hmem
  | bare htext =>
    rw [tokenLexemes_plain fun hmem => (htext.chars _ hmem).2.2 rfl]
    intro hmem
    obtain ⟨d, hd, heq⟩ := List.mem_map.1 hmem
    cases heq
    obtain ⟨hsemicolon, hclose, -⟩ := htext.chars c hd
    exact hc.elim hsemicolon hclose

theorem writtenValue_eq (h : value.WrittenAs text) :
    Stretch.writtenValue (tokenLexemes text) = value := by
  cases h with
  | quoted => rw [tokenLexemes_quoted, Stretch.writtenValue_literal]
  | bare htext =>
    rw [tokenLexemes_plain fun hmem => (htext.chars _ hmem).2.2 rfl, Stretch.writtenValue_of_ne,
      restored_plains]
    intro body heq
    obtain ⟨c, -, hc⟩ := List.map_eq_singleton_iff.1 heq
    cases hc

end BindingValue.WrittenAs

/-! ### Lines -/

theorem Lexable.word {word : List Char} {tokens : List (List Char)} (h : IsWord word)
    (hrest : Lexable tokens) : Lexable (word :: tokens) := ⟨.inl h.lexes, hrest⟩

theorem Lexable.mark {c : Char} {tokens : List (List Char)} (hc : c ∈ Stretch.marks)
    (hrest : Lexable tokens) : Lexable ([c] :: tokens) := ⟨.inl (lexes_mark hc).1, hrest⟩

/-- A value stands before a mark. -/
theorem Lexable.value {value : BindingValue} {text : List Char} {c : Char}
    {tokens : List (List Char)} (h : value.WrittenAs text) (hc : c ∈ Stretch.marks)
    (hrest : Lexable ([c] :: tokens)) : Lexable (text :: [c] :: tokens) := by
  refine ⟨h.lexes.imp_right fun htext => ⟨htext, [c], rfl, c, rfl, ?_⟩, hrest⟩
  refine ⟨?_, ?_⟩ <;> rintro rfl <;> exact absurd hc (by decide)

namespace LinesAre

variable {entries : List (String × BindingValue)} {tokens : List (List Char)} {ls : List Lexeme}

open Stretch (bindingsOf pieces binding? cut marks)

theorem lexable {others : List (List Char)} (h : LinesAre entries tokens)
    (hothers : Lexable (['\x7d'] :: others)) : Lexable (tokens ++ ['\x7d'] :: others) := by
  induction h with
  | nil => exact hothers
  | last hkey hvalue => exact .word hkey (.mark (by decide) (.value hvalue (by decide) hothers))
  | cons hkey hvalue _ ih =>
    exact .word hkey (.mark (by decide) (.value hvalue (by decide) (.mark (by decide) ih)))

theorem not_mem_close (h : LinesAre entries tokens) :
    ∀ part ∈ tokens.map tokenLexemes, .plain '\x7d' ∉ part := by
  have hmark {c : Char} (hc : c ∈ marks) (hne : c ≠ '\x7d') :
      .plain '\x7d' ∉ tokenLexemes [c] := by
    rw [(lexes_mark hc).2, List.mem_singleton]
    exact fun heq => hne (Lexeme.plain.inj heq).symm
  induction h with
  | nil => exact List.forall_mem_nil _
  | last hkey hvalue =>
    simp only [List.map_cons, List.map_nil, List.forall_mem_cons]
    exact ⟨hkey.solid.notMark _ (by decide), hmark (by decide) (by decide),
      hvalue.not_mem (.inr rfl), List.forall_mem_nil _⟩
  | cons hkey hvalue _ ih =>
    simp only [List.map_cons, List.forall_mem_cons]
    exact ⟨hkey.solid.notMark _ (by decide), hmark (by decide) (by decide),
      hvalue.not_mem (.inr rfl), hmark (by decide) (by decide), ih⟩

/-- The lexemes of a line are read as its binding, and hold no semicolon. -/
theorem binding?_of_tokens {key : String} {value : BindingValue} {text : List Char}
    (hkey : IsWord key.toList) (hvalue : value.WrittenAs text)
    (h : Spaced Lexeme.isBlank ([key.toList, ['='], text].map tokenLexemes) ls) (offset : Nat) :
    binding? ⟨offset, ls⟩ = .ok (some (key, value)) ∧ .plain ';' ∉ ls := by
  have hequals := (lexes_mark (c := '=') (by decide)).2
  simp only [List.map_cons, List.map_nil, hequals] at h
  refine ⟨?_, h.not_mem rfl ?_⟩
  · obtain ⟨b0, _, hb0, rfl, b1, _, hb1, rfl, b2, _, hb2, rfl, hb3⟩ := h
    have hread := Stretch.binding?_of_parts hkey.solid.tight hvalue.tight
      (hkey.solid.notMark '=' (by decide)) hb0 hb1 hb2 hb3 offset
    rwa [hkey.restored, String.ofList_toList, hvalue.writtenValue_eq] at hread
  · simp only [List.forall_mem_cons]
    exact ⟨hkey.solid.notMark _ (by decide), by decide, hvalue.not_mem (.inl rfl),
      List.forall_mem_nil _⟩

/-- The lexemes of lines are read as their bindings. -/
theorem bindingsOf_eq (h : LinesAre entries tokens)
    (hspaced : Spaced Lexeme.isBlank (tokens.map tokenLexemes) ls) (found : Bindings)
    (offset : Nat) : bindingsOf found (pieces ';' ⟨offset, ls⟩) =
      .ok (entries.foldl (fun known e => Dictionary.insert e.1 e.2 known) found) := by
  induction h generalizing ls found offset with
  | nil =>
    have hblank : ∀ l ∈ ls, l.isBlank = true := hspaced
    exact Stretch.bindingsOf_of_isSkipped found
      (fun l hl => by simp [Stretch.isSkipped, hblank l hl]) offset
  | last hkey hvalue =>
    obtain ⟨hline, hnone⟩ := binding?_of_tokens hkey hvalue hspaced offset
    rw [Stretch.pieces_of_none (Stretch.cut_eq_none_iff.2 hnone), Stretch.bindingsOf_cons, hline]
    rfl
  | @cons key value text entries tokens hkey hvalue _ ih =>
    obtain ⟨line, rest, hline, hrest, rfl⟩ :=
      Spaced.cut ([key.toList, ['='], text].map tokenLexemes) hspaced
    obtain ⟨hbinding, hnone⟩ := binding?_of_tokens hkey hvalue hline offset
    have hcut : cut ';' (line ++ (tokenLexemes [';'] ++ rest)) = some (line, rest) := by
      rw [(lexes_mark (by decide)).2]
      exact Stretch.cut_append_of_not_mem hnone rest
    rw [Stretch.pieces_of_cut hcut, Stretch.bindingsOf_cons, hbinding]
    exact ih hrest _ _

end LinesAre

/-! ### Blocks -/

namespace BlocksAre

variable {ds : List Declaration} {tokens : List (List Char)} {ls : List Lexeme}

open Declarations (gather table)

theorem lexable (h : BlocksAre ds tokens) : Lexable tokens := by
  induction h with
  | nil => trivial
  | stray _ ih => exact .mark (by decide) ih
  | cons hname htype _ _ hlines _ ih =>
    exact .word hname (.mark (by decide) (.word htype (.mark (by decide)
      (hlines.lexable (.mark (by decide) ih)))))

/-- Bindings may be written in any order. -/
theorem foldl_insert_eq {entries : List (String × BindingValue)} {bindings : Bindings}
    (h : entries.Perm bindings) (hordered : Dictionary.Ordered bindings) :
    entries.foldl (fun known e => Dictionary.insert e.1 e.2 known) [] = bindings := by
  have hkeys : (entries.map Prod.fst).Nodup :=
    (h.map Prod.fst).nodup_iff.2 (Dictionary.nodup_keys hordered)
  exact (Dictionary.ofList_perm hkeys h).trans hordered.ofList_eq

/-- The lexemes of blocks are read as their declarations. -/
theorem outcome_declarations (h : BlocksAre ds tokens)
    (hspaced : Spaced Lexeme.isBlank (tokens.map tokenLexemes) ls) {found all : Declarations}
    (hgather : gather found ds = .ok all) (offset : Nat) :
    outcome (Stretch.declarations found ⟨offset, ls⟩) = .ok all := by
  have hskipped {ls : List Lexeme} (h : ∀ l ∈ ls, l.isBlank = true) :
      ∀ l ∈ ls, Stretch.isSkipped (some ';') l = true := fun l hl => by
    simp [Stretch.isSkipped, h l hl]
  have hmark {c : Char} (hc : c ∈ Stretch.marks) : tokenLexemes [c] = [.plain c] :=
    (lexes_mark hc).2
  induction h generalizing ls found offset with
  | nil =>
    have hread := Stretch.outcome_declarations_of_isSkipped found offset offset (hskipped hspaced) []
    rw [List.append_nil, Stretch.declarations_of_none (Stretch.cut_eq_none_iff.2 List.not_mem_nil)]
      at hread
    exact hread.trans hgather
  | stray _ ih =>
    obtain ⟨blanks, rest, hblanks, rfl, hrest⟩ := hspaced
    have hfront : ∀ l ∈ blanks ++ tokenLexemes [';'], Stretch.isSkipped (some ';') l = true := by
      rw [hmark (by decide)]
      exact List.forall_mem_append.2 ⟨hskipped hblanks, List.forall_mem_singleton.2 rfl⟩
    rw [← List.append_assoc, Stretch.outcome_declarations_of_isSkipped found offset 0 hfront]
    exact ih hrest hgather 0
  | @cons d entries ds lines tokens hname htype hordered hentries hlines _ ih =>
    obtain ⟨header, _, hheader, hinside, rfl⟩ :=
      Spaced.cut ([d.name.toList, [':'], d.typeName.toList].map tokenLexemes) hspaced
    have hinside : Spaced Lexeme.isBlank ((lines ++ ['\x7d'] :: tokens).map tokenLexemes) _ := hinside
    rw [List.map_append, List.map_cons] at hinside
    obtain ⟨body, rest, hbody, hrest, rfl⟩ := Spaced.cut (lines.map tokenLexemes) hinside
    have hclose : .plain '\x7d' ∉ body := hbody.not_mem rfl hlines.not_mem_close
    have hbindings (offset : Nat) :
        Stretch.bindingsOf [] (Stretch.pieces ';' ⟨offset, body⟩) = .ok d.bindings := by
      rw [hlines.bindingsOf_eq hbody, foldl_insert_eq hentries hordered]
    simp only [List.map_cons, List.map_nil, hmark (by decide : ':' ∈ Stretch.marks)] at hheader
    rw [gather] at hgather
    split at hgather
    · cases hgather
    · rename_i hfree
      have hnew : Dictionary.contains
          (String.ofList ((tokenLexemes d.name.toList).flatMap Lexeme.masked)) found = false := by
        rw [hname.masked, String.ofList_toList]
        exact Bool.eq_false_iff.2 hfree
      have hread := Stretch.outcome_declarations_of_body hheader hname.solid htype.solid hclose
        hbindings hnew offset 0 rest
      rw [hname.masked, htype.masked, String.ofList_toList, String.ofList_toList] at hread
      rw [hmark (by decide), hmark (by decide)]
      exact hread.trans (ih hrest hgather 0)

end BlocksAre

/-- Declarations with different names are read back from any text of their tokens, whatever gaps
stand between these, and each is found under its name. -/
theorem Declarations.parse_tokens {ds : List Declaration} {tokens : List (List Char)}
    {front text : String} (hdistinct : (ds.map Declaration.name).Nodup)
    (htokens : BlocksAre ds tokens) (hfront : Gap front.toList) (htext : Tokens tokens text.toList) :
    parse (front ++ text) = .ok (table ds) ∧
      ∀ name, Dictionary.get? name (table ds) = ds.find? (·.name = name) := by
  refine ⟨?_, get?_table hdistinct⟩
  obtain ⟨blanks, hblanks, hblank⟩ := hfront.lexes
  obtain ⟨ls, hls, hspaced⟩ := htext.lexes htokens.lexable
  have hlex : Lexeme.lex (front ++ text).toList = .ok (blanks ++ ls) := by
    have hall := (hblanks.append hls) 0 []
    rw [List.append_nil] at hall
    rw [Lexeme.lex, String.toList_append, hall, Lexeme.lexFrom]
    simp [Except.map]
  have hskipped : ∀ l ∈ blanks, Stretch.isSkipped (some ';') l = true := fun l hl => by
    simp [Stretch.isSkipped, hblank l hl]
  have hread : read (front ++ text).toList = .ok (table ds) := by
    rw [read, hlex, ← outcome_eq_ok_iff]
    exact (Stretch.outcome_declarations_of_isSkipped [] 0 0 hskipped ls).trans
      (htokens.outcome_declarations hspaced (gather_nil_eq_ok_iff.2 ⟨hdistinct, rfl⟩) 0)
  rw [parse, hread]
  rfl

/-- A block comment with a brace, a value of marks, one with a slash, and a line comment with a
quote. -/
theorem Declarations.parse_tokens_commented :
    parse ("/* \x7b */ " ++ "A : B \x7b k = \"\x7d;\" ; j=a/b \x7d ; // \"\n") =
      .ok (table [⟨"A", "B", [("j", .bare "a/b"), ("k", .quoted "\"\x7d;\"")]⟩]) := by
  have hletter {word : String} {c : Char} (h : word.toList = [c]) (hc : isIdentifierChar c = true) :
      IsWord word.toList := by
    rw [h]
    exact IsIdentifier.isWord ⟨List.cons_ne_nil c [], List.forall_mem_singleton.2 hc⟩
  have hbare : IsBareText ['a', '/', 'b'] :=
    ⟨by decide, by rintro _ ⟨⟩; decide, by rintro _ ⟨⟩; decide, by simp, by decide, by decide⟩
  have hquoted : Unquoted '"' ['\x7d', ';'] := by simp [Unquoted]
  have hlines : LinesAre [("k", .quoted "\"\x7d;\""), ("j", .bare "a/b")]
      ["k".toList, ['='], ['"', '\x7d', ';', '"'], [';'], "j".toList, ['='], ['a', '/', 'b']] :=
    .cons (hletter rfl rfl) (.quoted hquoted) (.last (hletter rfl rfl) (.bare hbare))
  have htokens : BlocksAre [⟨"A", "B", [("j", .bare "a/b"), ("k", .quoted "\"\x7d;\"")]⟩] _ :=
    .cons (hletter rfl rfl) (hletter rfl rfl) (by decide) (List.Perm.swap ..) hlines (.stray .nil)
  have hone : ∀ c ∈ [' '], Text.isBlank c = true := List.forall_mem_singleton.2 rfl
  have hnone : ∀ c ∈ ([] : List Char), Text.isBlank c = true := List.forall_mem_nil _
  have hfront : Gap "/* \x7b */ ".toList :=
    @Gap.blockComment [' ', '\x7b', ' '] [' '] (by decide) (.of_blanks hone)
  have hcomment : Gap ['/', '/', ' ', '"', '\n'] := @Gap.lineComment [' ', '"'] [] (by simp) .nil
  have hend : Tokens [] [' ', '/', '/', ' ', '"', '\n'] :=
    SetOff.mk (.blank rfl hcomment) (by rintro _ ⟨⟩; rfl)
  have htext : Tokens ["A".toList, [':'], "B".toList, ['\x7b'], "k".toList, ['='],
      ['"', '\x7d', ';', '"'], [';'], "j".toList, ['='], ['a', '/', 'b'], ['\x7d'], [';']]
      "A : B \x7b k = \"\x7d;\" ; j=a/b \x7d ; // \"\n".toList :=
    .blanks hnone <| .blanks hone <| .blanks hone <| .blanks hone <| .blanks hone <| .blanks hone <|
    .blanks hone <| .blanks hone <| .blanks hone <| .blanks hnone <| .blanks hnone <|
    .blanks hone <| .blanks hone hend
  exact (parse_tokens (by decide) htokens hfront htext).1

end PageEngine
