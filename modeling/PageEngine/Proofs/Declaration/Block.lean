import PageEngine.Proofs.Declaration.Composition

/-! One declaration, put together from its parts. Blanks may stand before, between and behind the
parts. First the lexemes of a text are put together from those of its parts, then a head and a
block are read from the lexemes. -/

namespace PageEngine

open Text (byteLength byteLength_append)

/-- A text of the given parts, with any blanks before, between and behind them. -/
def Spaced {α : Type} (isBlank : α → Bool) : List (List α) → List α → Prop
  | [], text => ∀ c ∈ text, isBlank c = true
  | part :: parts, text => ∃ blanks rest, (∀ c ∈ blanks, isBlank c = true) ∧
    text = blanks ++ (part ++ rest) ∧ Spaced isBlank parts rest

namespace Spaced

variable {α : Type} {isBlank : α → Bool} {parts others : List (List α)} {part text : List α}

/-- One blank before each part. -/
theorem flatMap_cons {c : α} (hc : isBlank c = true) (parts : List (List α)) :
    Spaced isBlank parts (parts.flatMap (c :: ·)) := by
  induction parts with
  | nil => exact fun _ hx => (List.not_mem_nil hx).elim
  | cons part parts ih => exact ⟨[c], _, by simpa using hc, by simp, ih⟩

/-- A text falls apart at any of its parts. -/
theorem cut (parts : List (List α)) (h : Spaced isBlank (parts ++ part :: others) text) :
    ∃ before after, Spaced isBlank parts before ∧ Spaced isBlank others after ∧
      text = before ++ (part ++ after) := by
  induction parts generalizing text with
  | nil =>
    obtain ⟨blanks, rest, hblanks, rfl, hrest⟩ := h
    exact ⟨blanks, rest, hblanks, hrest, rfl⟩
  | cons first parts ih =>
    obtain ⟨blanks, rest, hblanks, rfl, hrest⟩ := h
    obtain ⟨before, after, hbefore, hafter, rfl⟩ := ih hrest
    exact ⟨blanks ++ (first ++ before), after, ⟨blanks, before, hblanks, rfl, hbefore⟩, hafter,
      by simp⟩

theorem not_mem {c : α} (hc : isBlank c = false) (h : Spaced isBlank parts text)
    (hparts : ∀ part ∈ parts, c ∉ part) : c ∉ text := by
  have hnot {blanks : List α} (h : ∀ x ∈ blanks, isBlank x = true) : c ∉ blanks := by
    intro hmem
    cases hc.symm.trans (h c hmem)
  induction parts generalizing text with
  | nil => exact hnot h
  | cons first parts ih =>
    obtain ⟨blanks, rest, hblanks, rfl, hrest⟩ := h
    simp only [List.mem_append, not_or]
    exact ⟨hnot hblanks, hparts first List.mem_cons_self,
      ih hrest fun part hpart => hparts part (List.mem_cons_of_mem first hpart)⟩

end Spaced

/-! ### Lexemes -/

namespace Lexeme

/-- The text has these lexemes, whatever follows it. -/
def Lexes (cs : List Char) (ls : List Lexeme) : Prop :=
  ∀ offset rest, lexFrom offset (cs ++ rest) =
    (lexFrom (offset + byteLength cs) rest).map (ls ++ ·)

namespace Lexes

variable {cs ds : List Char} {ls ms : List Lexeme}

theorem nil : Lexes [] [] := by
  intro offset rest
  rw [List.nil_append, Text.byteLength_nil, Nat.add_zero]
  cases lexFrom offset rest <;> rfl

theorem append (h : Lexes cs ls) (h' : Lexes ds ms) : Lexes (cs ++ ds) (ls ++ ms) := by
  intro offset rest
  rw [List.append_assoc, h, h', byteLength_append, Nat.add_assoc]
  cases lexFrom _ rest <;> simp [Except.map]

theorem plain {c : Char} (hquote : c ≠ '"') (hslash : c ≠ '/') : Lexes [c] [.plain c] := by
  intro offset rest
  have h : StandsPlain c rest := ⟨hquote, fun hc => absurd hc hslash⟩
  exact lexFrom_plain h

/-- Characters that begin neither a literal nor a comment. -/
theorem plains (h : ∀ c ∈ cs, c ≠ '"' ∧ c ≠ '/') : Lexes cs (cs.map .plain) := by
  induction cs with
  | nil => exact .nil
  | cons c cs ih =>
    obtain ⟨hquote, hslash⟩ := h c List.mem_cons_self
    exact (plain hquote hslash).append (ih fun d hd => h d (List.mem_cons_of_mem c hd))

theorem blanks (h : ∀ c ∈ cs, Text.isBlank c = true) : Lexes cs (cs.map .plain) := by
  refine plains fun c hc => ⟨?_, ?_⟩
  · rintro rfl
    cases h _ hc
  · rintro rfl
    cases h _ hc

theorem literal {body : List Char} (h : Unquoted '"' body) :
    Lexes ('"' :: (body ++ ['"'])) [.literal body] := by
  intro offset rest
  have htaken : takeLiteral (body ++ ['"'] ++ rest) = some (body, rest) := by
    simpa using takeLiteral_append h rest
  rw [List.cons_append, lexFrom_literal htaken]
  rfl

/-- The lexemes of parts with blanks around them are those of the parts, with blanks around
them. -/
theorem spaced {parts : List (List Char × List Lexeme)} {text : List Char}
    (h : Spaced Text.isBlank (parts.map Prod.fst) text) (hparts : ∀ p ∈ parts, Lexes p.1 p.2) :
    ∃ ls, Lexes text ls ∧ Spaced Lexeme.isBlank (parts.map Prod.snd) ls := by
  induction parts generalizing text with
  | nil =>
    have hblank : ∀ c ∈ text, Text.isBlank c = true := h
    refine ⟨text.map .plain, blanks hblank, fun l hl => ?_⟩
    obtain ⟨c, hc, rfl⟩ := List.mem_map.1 hl
    exact hblank c hc
  | cons p parts ih =>
    obtain ⟨before, rest, hbefore, rfl, hrest⟩ := h
    obtain ⟨ls, hls, hspaced⟩ := ih hrest fun q hq => hparts q (List.mem_cons_of_mem p hq)
    refine ⟨before.map .plain ++ (p.2 ++ ls),
      (blanks hbefore).append ((hparts p List.mem_cons_self).append hls),
      before.map .plain, ls, fun l hl => ?_, rfl, hspaced⟩
    obtain ⟨c, hc, rfl⟩ := List.mem_map.1 hl
    exact hbefore c hc

end Lexes

end Lexeme

/-! ### Parts of a declaration -/

namespace Stretch

variable {ls before after left right : List Lexeme} {separator : Option Char}

/-- Lexemes that no blank begins or ends. -/
structure Tight (ls : List Lexeme) : Prop where
  ne_nil : ls ≠ []
  head : ∀ l ∈ ls.head?, l.isBlank = false
  last : ∀ l ∈ ls.getLast?, l.isBlank = false

theorem Tight.of_forall (hne : ls ≠ []) (h : ∀ l ∈ ls, l.isBlank = false) : Tight ls :=
  ⟨hne, fun l hl => h l (List.mem_of_mem_head? hl), fun l hl => h l (List.mem_of_mem_getLast? hl)⟩

theorem Tight.append (hleft : Tight left) (hright : Tight right) (ls : List Lexeme) :
    Tight (left ++ (ls ++ right)) where
  ne_nil := List.append_ne_nil_of_left_ne_nil hleft.ne_nil _
  head := by
    rw [List.head?_append_of_ne_nil _ hleft.ne_nil]
    exact hleft.head
  last := by
    rw [← List.append_assoc, List.getLast?_append_of_ne_nil _ hright.ne_nil]
    exact hright.last

theorem dropWhile_eq_self {p : Lexeme → Bool} (h : ∀ l ∈ ls.head?, p l = false) :
    ls.dropWhile p = ls := by
  cases ls with
  | nil => rfl
  | cons l ls => exact List.dropWhile_cons_of_neg (by simp [h l rfl])

/-- What is skipped around a part is trimmed off. -/
theorem Tight.trimmed_eq (h : Tight ls) (hbefore : ∀ l ∈ before, isSkipped separator l = true)
    (hseparator : ∀ l ∈ ls.head?, separator.map Lexeme.plain ≠ some l)
    (hafter : ∀ l ∈ after, l.isBlank = true) :
    trimmed separator (before ++ (ls ++ after)) = ls := by
  have hfirst : ∀ l ∈ (ls ++ after).head?, isSkipped separator l = false := by
    intro l hl
    rw [List.head?_append_of_ne_nil _ h.ne_nil] at hl
    simp [isSkipped, hseparator l hl, h.head l hl]
  have hlast : ∀ l ∈ ls.reverse.head?, l.isBlank = false := by
    rw [List.head?_reverse]
    exact h.last
  have hblank : ∀ l ∈ after.reverse, l.isBlank = true := fun l hl =>
    hafter l (List.mem_reverse.1 hl)
  rw [trimmed, List.dropWhile_append_of_pos hbefore, dropWhile_eq_self hfirst,
    List.reverse_append, List.dropWhile_append_of_pos hblank, dropWhile_eq_self hlast,
    List.reverse_reverse]

theorem Tight.trimmed_between (h : Tight ls) (hbefore : ∀ l ∈ before, l.isBlank = true)
    (hafter : ∀ l ∈ after, l.isBlank = true) : trimmed none (before ++ (ls ++ after)) = ls :=
  h.trimmed_eq (fun l hl => by simp [isSkipped, hbefore l hl]) (fun _ _ => nofun) hafter

theorem Tight.trimmed_left (h : Tight ls) (hafter : ∀ l ∈ after, l.isBlank = true) :
    trimmed none (ls ++ after) = ls :=
  h.trimmed_between (fun _ hl => (List.not_mem_nil hl).elim) hafter

theorem Tight.trimmed_right (h : Tight ls) (hbefore : ∀ l ∈ before, l.isBlank = true) :
    trimmed none (before ++ ls) = ls := by
  have htrimmed := h.trimmed_between hbefore fun l (hl : l ∈ []) => (List.not_mem_nil hl).elim
  rwa [List.append_nil] at htrimmed

theorem not_mem_of_isBlank {c : Char} (hc : Text.isBlank c = false)
    (h : ∀ l ∈ ls, l.isBlank = true) : .plain c ∉ ls := by
  intro hmem
  have hblank : Text.isBlank c = true := h _ hmem
  cases hc.symm.trans hblank

/-- A part that a mark `c` follows is cut off there. -/
theorem cut_of_part {part rest : List Lexeme} {c : Char} (hc : Text.isBlank c = false)
    (hpart : .plain c ∉ part) (hafter : ∀ l ∈ after, l.isBlank = true) :
    cut c (part ++ (after ++ .plain c :: rest)) = some (part ++ after, rest) := by
  have hnot : .plain c ∉ part ++ after := fun hmem =>
    (List.mem_append.1 hmem).elim hpart (not_mem_of_isBlank hc hafter)
  rw [← List.append_assoc, cut_append_of_not_mem hnot]

/-- The head of a declaration. -/
theorem declaration_of_parts {name typeName : List Lexeme} (hname : Tight name)
    (htype : Tight typeName) (hcolon : .plain ':' ∉ name)
    (hafter : ∀ l ∈ after, l.isBlank = true) (hbefore : ∀ l ∈ before, l.isBlank = true)
    (offset : Nat) (body : Stretch) :
    declaration ⟨offset, name ++ (after ++ .plain ':' :: (before ++ typeName))⟩ body =
      (bindingsOf [] (body.pieces ';')).map fun bindings =>
        ⟨String.ofList (name.flatMap Lexeme.masked), String.ofList (typeName.flatMap Lexeme.masked),
          bindings⟩ := by
  unfold declaration
  simp only [cutAt_eq_map, cut_of_part (by decide) hcolon hafter, Option.map_some, lexemes_trim,
    masked, hname.trimmed_left hafter, htype.trimmed_right hbefore, List.isEmpty_iff,
    hname.ne_nil, htype.ne_nil, if_false]

/-- What a value means that is written with these lexemes. -/
def writtenValue (value : List Lexeme) : BindingValue :=
  match value with
  | [.literal _] => .quoted (String.ofList (value.flatMap Lexeme.restored))
  | _ => .bare (String.ofList (value.flatMap Lexeme.restored))

theorem writtenValue_literal (body : List Char) : writtenValue [.literal body] =
    .quoted (String.ofList ('"' :: (body ++ ['"']))) := by
  simp [writtenValue, Lexeme.restored]

theorem writtenValue_of_ne (h : ∀ body, ls ≠ [.literal body]) :
    writtenValue ls = .bare (String.ofList (ls.flatMap Lexeme.restored)) := by
  unfold writtenValue
  split
  · rename_i body
    exact absurd rfl (h body)
  · rfl

/-- A line is read part by part. -/
theorem binding?_eq (s : Stretch) : s.binding? =
    if s.trim.lexemes.isEmpty then .ok none
    else
      match s.trim.cutAt '=' with
      | none => .error ⟨.missingEquals, s.trim.offset⟩
      | some (left, right) =>
        if left.trim.lexemes.isEmpty then .error ⟨.missingBindingKey, s.trim.offset⟩
        else if right.trim.lexemes.isEmpty then .error ⟨.missingBindingValue, right.offset - 1⟩
        else .ok (some (left.trim.restored, writtenValue right.trim.lexemes)) := by
  unfold binding?
  dsimp only
  cases s.trim.cutAt '=' with
  | none => rfl
  | some found =>
    obtain ⟨left, right⟩ := found
    dsimp only
    generalize right.trim = value
    obtain ⟨offset, ls⟩ := value
    rcases ls with _ | ⟨l, _ | ⟨l', ls⟩⟩
    · rfl
    · cases l <;> rfl
    · cases l <;> rfl

/-- A line of a block. -/
theorem binding?_of_parts {key value blanks blanks' : List Lexeme} (hkey : Tight key)
    (hvalue : Tight value) (hequals : .plain '=' ∉ key)
    (hblanks : ∀ l ∈ blanks, l.isBlank = true) (hafter : ∀ l ∈ after, l.isBlank = true)
    (hbefore : ∀ l ∈ before, l.isBlank = true) (hblanks' : ∀ l ∈ blanks', l.isBlank = true)
    (offset : Nat) :
    binding? ⟨offset, blanks ++
        (key ++ (after ++ .plain '=' :: (before ++ (value ++ blanks'))))⟩ =
      .ok (some (String.ofList (key.flatMap Lexeme.restored), writtenValue value)) := by
  have hline : Tight (key ++ (after ++ .plain '=' :: (before ++ value))) := by
    have htight := hkey.append hvalue (after ++ .plain '=' :: before)
    rwa [List.append_assoc, List.cons_append] at htight
  have htrim : trimmed none (blanks ++
      (key ++ (after ++ .plain '=' :: (before ++ (value ++ blanks'))))) =
        key ++ (after ++ .plain '=' :: (before ++ value)) := by
    have htrimmed := hline.trimmed_between hblanks hblanks'
    simpa only [List.append_assoc, List.cons_append] using htrimmed
  have hne : key ++ (after ++ .plain '=' :: (before ++ value)) ≠ [] := hline.ne_nil
  unfold binding?
  simp only [cutAt_eq_map, lexemes_trim, htrim, List.isEmpty_iff, hne,
    cut_of_part (by decide) hequals hafter, Option.map_some, if_false, hkey.trimmed_left hafter,
    hvalue.trimmed_right hbefore, hkey.ne_nil, restored]
  obtain ⟨first, rest, rfl⟩ := List.exists_cons_of_ne_nil hvalue.ne_nil
  cases rest with
  | cons second rest => cases first <;> rfl
  | nil => cases first <;> rfl

/-! ### A block of one line -/

/-- The characters that part declarations. -/
def marks : List Char := ['\x7b', '\x7d', ':', ';', '=']

/-- Lexemes without blanks and marks. -/
structure Solid (ls : List Lexeme) : Prop where
  ne_nil : ls ≠ []
  notBlank : ∀ l ∈ ls, l.isBlank = false
  notMark : ∀ c ∈ marks, .plain c ∉ ls

theorem Solid.tight (h : Solid ls) : Tight ls := .of_forall h.ne_nil h.notBlank

theorem isBlank_of_isSkipped {l : Lexeme} {c : Char} (h : isSkipped (some c) l = true)
    (hne : l ≠ .plain c) : l.isBlank = true := by
  simpa [isSkipped, Ne.symm hne] using h

theorem binding?_of_isBlank (h : ∀ l ∈ ls, l.isBlank = true) (offset : Nat) :
    binding? ⟨offset, ls⟩ = .ok none := by
  have hskipped : ∀ l ∈ ls, isSkipped none l = true := fun l hl => by simp [isSkipped, h l hl]
  have htrim : trimmed none ls = [] := by
    rw [trimmed, List.dropWhile_eq_nil_iff.2 hskipped]
    rfl
  simp [binding?, lexemes_trim, htrim]

theorem isBlank_of_cut_none {c : Char} (h : ∀ l ∈ ls, isSkipped (some c) l = true)
    (hcut : cut c ls = none) : ∀ l ∈ ls, l.isBlank = true := fun l hl =>
  isBlank_of_isSkipped (h l hl) fun heq => cut_eq_none_iff.1 hcut (heq ▸ hl)

theorem isBlank_of_cut_some {c : Char} (h : ∀ l ∈ ls, isSkipped (some c) l = true)
    (hcut : cut c ls = some (before, after)) :
    (∀ l ∈ before, l.isBlank = true) ∧ ∀ l ∈ after, isSkipped (some c) l = true := by
  rw [eq_of_cut hcut] at h
  refine ⟨fun l hl => ?_, fun l hl => ?_⟩
  · exact isBlank_of_isSkipped (h l (List.mem_append_left _ hl))
      fun heq => not_mem_of_cut hcut (heq ▸ hl)
  · exact h l (List.mem_append_right _ (List.mem_cons_of_mem _ hl))

/-- Blanks and semicolons bind nothing. -/
theorem bindingsOf_of_isSkipped (found : Bindings) (h : ∀ l ∈ ls, isSkipped (some ';') l = true)
    (offset : Nat) : bindingsOf found (pieces ';' ⟨offset, ls⟩) = .ok found := by
  induction hn : ls.length using Nat.strongRecOn generalizing ls offset with
  | ind n ih =>
    cases hcut : cut ';' ls with
    | none =>
      rw [pieces_of_none hcut, bindingsOf_cons, binding?_of_isBlank (isBlank_of_cut_none h hcut)]
      rfl
    | some found =>
      obtain ⟨before, after⟩ := found
      obtain ⟨hbefore, hafter⟩ := isBlank_of_cut_some h hcut
      have hlt : after.length < n := by
        rw [← hn, eq_of_cut hcut, List.length_append, List.length_cons]
        omega
      rw [pieces_of_cut hcut, bindingsOf_cons, binding?_of_isBlank hbefore]
      exact ih _ hlt hafter _ rfl

/-- A line, then nothing but blanks and semicolons. -/
theorem bindingsOf_of_line {line trail : List Lexeme} {entry : String × BindingValue}
    (hline : .plain ';' ∉ line)
    (hentry : ∀ blanks, (∀ l ∈ blanks, l.isBlank = true) → ∀ offset,
      binding? ⟨offset, line ++ blanks⟩ = .ok (some entry))
    (htrail : ∀ l ∈ trail, isSkipped (some ';') l = true) (found : Bindings) (offset : Nat) :
    bindingsOf found (pieces ';' ⟨offset, line ++ trail⟩) =
      .ok (Dictionary.insert entry.1 entry.2 found) := by
  have hcut := cut_append_of_none (cut_eq_none_iff.2 hline) trail
  cases hmark : cut ';' trail with
  | none =>
    rw [hmark] at hcut
    rw [pieces_of_none hcut, bindingsOf_cons, hentry trail (isBlank_of_cut_none htrail hmark)]
    rfl
  | some parts =>
    obtain ⟨before, after⟩ := parts
    obtain ⟨hbefore, hafter⟩ := isBlank_of_cut_some htrail hmark
    rw [hmark] at hcut
    rw [pieces_of_cut hcut, bindingsOf_cons, hentry before hbefore]
    exact bindingsOf_of_isSkipped _ hafter _

/-- The head of a declaration, with any blanks between its parts. -/
theorem outcome_declaration_of_spaced {name typeName : List Lexeme}
    (h : Spaced Lexeme.isBlank [name, [.plain ':'], typeName] ls) (hname : Solid name)
    (htype : Solid typeName) (offset : Nat) (body : Stretch) :
    outcome (declaration (trimHeader ⟨offset, ls⟩) body) =
      outcome ((bindingsOf [] (body.pieces ';')).map fun bindings =>
        ⟨String.ofList (name.flatMap Lexeme.masked), String.ofList (typeName.flatMap Lexeme.masked),
          bindings⟩) := by
  obtain ⟨b0, _, hb0, rfl, b1, _, hb1, rfl, b2, b3, hb2, rfl, hb3⟩ := h
  have hheader : Tight (name ++ (b1 ++ .plain ':' :: (b2 ++ typeName))) := by
    have htight := hname.tight.append htype.tight (b1 ++ .plain ':' :: b2)
    rwa [List.append_assoc, List.cons_append] at htight
  have hhead : ∀ l ∈ (name ++ (b1 ++ .plain ':' :: (b2 ++ typeName))).head?,
      some (Lexeme.plain ';') ≠ some l := by
    intro l hl heq
    rw [List.head?_append_of_ne_nil _ hname.ne_nil] at hl
    exact hname.notMark ';' (by decide) (Option.some.inj heq ▸ List.mem_of_mem_head? hl)
  have htrim : trimmed (some ';')
      (b0 ++ (name ++ (b1 ++ .plain ':' :: (b2 ++ typeName)) ++ b3)) = _ :=
    hheader.trimmed_eq (fun l hl => by simp [isSkipped, hb0 l hl]) hhead hb3
  rw [← declaration_of_parts hname.tight htype.tight (hname.notMark ':' (by decide)) hb1 hb2 0 body]
  refine outcome_declaration ?_ rfl
  rw [lexemes_trimHeader, ← htrim]
  simp

/-- A block of one line, with any blanks between its parts. -/
theorem bindingsOf_of_spaced {key value trail : List Lexeme}
    (h : Spaced Lexeme.isBlank [key, [.plain '='], value, trail] ls) (hkey : Solid key)
    (hvalue : Solid value) (htrail : ∀ l ∈ trail, isSkipped (some ';') l = true) (offset : Nat) :
    bindingsOf [] (pieces ';' ⟨offset, ls⟩) =
      .ok [(String.ofList (key.flatMap Lexeme.restored), writtenValue value)] := by
  obtain ⟨b0, _, hb0, rfl, b1, _, hb1, rfl, b2, _, hb2, rfl, b3, b4, hb3, rfl, hb4⟩ := h
  have hblank {blanks : List Lexeme} (h : ∀ l ∈ blanks, l.isBlank = true) :
      ∀ l ∈ blanks, isSkipped (some ';') l = true := fun l hl => by simp [isSkipped, h l hl]
  have hline : Spaced Lexeme.isBlank [key, [.plain '='], value]
      (b0 ++ (key ++ (b1 ++ .plain '=' :: (b2 ++ (value ++ []))))) :=
    ⟨b0, _, hb0, rfl, b1, _, hb1, rfl, b2, _, hb2, rfl, fun _ hl => (List.not_mem_nil hl).elim⟩
  have hsemicolon : .plain ';' ∉ b0 ++ (key ++ (b1 ++ .plain '=' :: (b2 ++ (value ++ [])))) := by
    refine hline.not_mem rfl ?_
    simp only [List.forall_mem_cons]
    exact ⟨hkey.notMark ';' (by decide), by decide, hvalue.notMark ';' (by decide),
      List.forall_mem_nil _⟩
  have hentry : ∀ blanks, (∀ l ∈ blanks, l.isBlank = true) → ∀ offset,
      binding? ⟨offset, b0 ++ (key ++ (b1 ++ .plain '=' :: (b2 ++ (value ++ [])))) ++ blanks⟩ =
        .ok (some (String.ofList (key.flatMap Lexeme.restored), writtenValue value)) := by
    intro blanks hblanks offset
    have hread := binding?_of_parts hkey.tight hvalue.tight (hkey.notMark '=' (by decide)) hb0 hb1
      hb2 hblanks offset
    rw [← hread]
    simp
  have htrail : ∀ l ∈ b3 ++ (trail ++ b4), isSkipped (some ';') l = true := by
    simp only [List.mem_append]
    rintro l (hl | hl | hl)
    · exact hblank hb3 l hl
    · exact htrail l hl
    · exact hblank hb4 l hl
  have hread := bindingsOf_of_line hsemicolon hentry htrail [] offset
  have hentries : Dictionary.insert (String.ofList (key.flatMap Lexeme.restored))
      (writtenValue value) [] = [(String.ofList (key.flatMap Lexeme.restored), writtenValue value)] := rfl
  rw [← hentries, ← hread]
  simp

/-- A head and a block are read as a declaration if the name is new. -/
theorem outcome_declarations_of_body {name typeName header body : List Lexeme}
    {bindings : Bindings} (hheader : Spaced Lexeme.isBlank [name, [.plain ':'], typeName] header)
    (hname : Solid name) (htype : Solid typeName) (hclose : .plain '\x7d' ∉ body)
    (hbody : ∀ offset, bindingsOf [] (pieces ';' ⟨offset, body⟩) = .ok bindings)
    {found : Declarations}
    (hnew : Dictionary.contains (String.ofList (name.flatMap Lexeme.masked)) found = false)
    (offset offset' : Nat) (more : List Lexeme) :
    let d : Declaration := ⟨String.ofList (name.flatMap Lexeme.masked),
      String.ofList (typeName.flatMap Lexeme.masked), bindings⟩
    outcome (declarations found
        ⟨offset, header ++ .plain '\x7b' :: (body ++ .plain '\x7d' :: more)⟩) =
      outcome (declarations (Dictionary.insert d.name d found) ⟨offset', more⟩) := by
  intro d
  have hopen : .plain '\x7b' ∉ header := by
    refine hheader.not_mem rfl ?_
    simp only [List.forall_mem_cons]
    exact ⟨hname.notMark _ (by decide), by decide, htype.notMark _ (by decide), List.forall_mem_nil _⟩
  have hdeclaration (offset offset' : Nat) :
      declaration (trimHeader ⟨offset, header⟩) ⟨offset', body⟩ = .ok d := by
    refine outcome_eq_ok_iff.1 ?_
    rw [outcome_declaration_of_spaced hheader hname htype, hbody]
    rfl
  rw [declarations_of_new (cut_append_of_not_mem hopen _) (cut_append_of_not_mem hclose _)
    (hdeclaration _ _) hnew]
  exact outcome_declarations_of_isSkipped _ _ offset' (List.forall_mem_nil _) more

/-- A declaration of one binding, with any blanks between its parts, is read as that. -/
theorem outcome_declarations_of_spaced {name typeName key value trail : List Lexeme}
    (h : Spaced Lexeme.isBlank [name, [.plain ':'], typeName, [.plain '\x7b'], key, [.plain '='],
      value, trail, [.plain '\x7d']] ls)
    (hname : Solid name) (htype : Solid typeName) (hkey : Solid key) (hvalue : Solid value)
    (htrail : ∀ l ∈ trail, isSkipped (some ';') l = true) {found : Declarations}
    (hnew : Dictionary.contains (String.ofList (name.flatMap Lexeme.masked)) found = false)
    (offset offset' : Nat) (more : List Lexeme) :
    let d : Declaration := ⟨String.ofList (name.flatMap Lexeme.masked),
      String.ofList (typeName.flatMap Lexeme.masked),
      [(String.ofList (key.flatMap Lexeme.restored), writtenValue value)]⟩
    outcome (declarations found ⟨offset, ls ++ more⟩) =
      outcome (declarations (Dictionary.insert d.name d found) ⟨offset', more⟩) := by
  intro d
  obtain ⟨header, _, hheader, hinside, rfl⟩ := Spaced.cut [name, [.plain ':'], typeName] h
  obtain ⟨body, rest, hbody, hrest, rfl⟩ :=
    Spaced.cut [key, [.plain '='], value, trail] hinside
  have hclose : .plain '\x7d' ∉ body := by
    refine hbody.not_mem rfl ?_
    simp only [List.forall_mem_cons]
    exact ⟨hkey.notMark _ (by decide), by decide, hvalue.notMark _ (by decide),
      fun hmem => absurd (htrail _ hmem) (by decide), List.forall_mem_nil _⟩
  have hls : header ++ ([.plain '\x7b'] ++ (body ++ ([.plain '\x7d'] ++ rest))) ++ more =
      header ++ .plain '\x7b' :: (body ++ .plain '\x7d' :: (rest ++ more)) := by simp
  have hblank : ∀ l ∈ rest, l.isBlank = true := hrest
  rw [hls, outcome_declarations_of_body hheader hname htype hclose
    (bindingsOf_of_spaced hbody hkey hvalue htrail) hnew offset 0]
  exact outcome_declarations_of_isSkipped _ _ offset'
    (fun l hl => by simp [isSkipped, hblank l hl]) more

end Stretch

/-! ### Texts -/

theorem toNat_of_isIdentifierChar {c : Char} (h : isIdentifierChar c = true) :
    c.toNat = 45 ∨ 48 ≤ c.toNat ∧ c.toNat ≤ 57 ∨ 65 ≤ c.toNat ∧ c.toNat ≤ 90 ∨ c.toNat = 95 ∨
      97 ≤ c.toNat ∧ c.toNat ≤ 122 := by
  have hdigit (hdigit : c.isDigit = true) : 48 ≤ c.toNat ∧ c.toNat ≤ 57 := by
    obtain ⟨hfirst, hlast⟩ := Bool.and_eq_true_iff.1 hdigit
    exact ⟨UInt32.le_iff_toNat_le.1 (of_decide_eq_true hfirst),
      UInt32.le_iff_toNat_le.1 (of_decide_eq_true hlast)⟩
  simp only [isIdentifierChar, Char.isAlphanum, Bool.or_eq_true, beq_iff_eq] at h
  rcases h with ((hletter | h) | rfl) | rfl
  · rcases Bool.or_eq_true_iff.1 hletter with h | h
    · exact .inr (.inr (.inl (Text.range_of_isUpper h)))
    · exact .inr (.inr (.inr (.inr (Text.range_of_isLower h))))
  · exact .inr (.inl (hdigit h))
  · decide
  · decide

theorem not_isBlank_of_isIdentifierChar {c : Char} (h : isIdentifierChar c = true) :
    Text.isBlank c = false := by
  have hrange := toNat_of_isIdentifierChar h
  simp only [Text.isBlank, Text.blankRanges, List.any_cons, List.any_nil, Bool.or_false,
    Bool.or_eq_false_iff, Bool.and_eq_false_iff, decide_eq_false_iff_not]
  omega

/-- A name or a type in a declaration: letters, digits, underscores and hyphens. -/
structure IsIdentifier (cs : List Char) : Prop where
  ne_nil : cs ≠ []
  chars : ∀ c ∈ cs, isIdentifierChar c = true

namespace IsIdentifier

variable {cs : List Char}

theorem solid (h : IsIdentifier cs) : Stretch.Solid (cs.map .plain) where
  ne_nil := by simpa using h.ne_nil
  notBlank := by
    intro l hl
    obtain ⟨c, hc, rfl⟩ := List.mem_map.1 hl
    exact not_isBlank_of_isIdentifierChar (h.chars c hc)
  notMark := by
    intro c hmark hmem
    obtain ⟨d, hd, heq⟩ := List.mem_map.1 hmem
    cases heq
    have hmarks : (Stretch.marks.all fun c => !isIdentifierChar c) = true := by decide
    have hnot := List.all_eq_true.1 hmarks c hmark
    simp [h.chars c hd] at hnot

theorem lexes (h : IsIdentifier cs) : Lexeme.Lexes cs (cs.map .plain) := by
  refine .plains fun c hc => ⟨?_, ?_⟩
  · rintro rfl
    cases h.chars _ hc
  · rintro rfl
    cases h.chars _ hc

end IsIdentifier

theorem masked_plains (cs : List Char) : (cs.map Lexeme.plain).flatMap Lexeme.masked = cs := by
  induction cs with
  | nil => rfl
  | cons c cs ih => rw [List.map_cons, List.flatMap_cons, ih]; rfl

theorem restored_plains (cs : List Char) : (cs.map Lexeme.plain).flatMap Lexeme.restored = cs := by
  induction cs with
  | nil => rfl
  | cons c cs ih => rw [List.map_cons, List.flatMap_cons, ih]; rfl

/-- A declaration of one binding to a quoted value, with any blanks between its parts, is read as
that, and what follows it is read after it. -/
theorem Declarations.outcome_readAfter_declared {found : Declarations}
    {name typeName key body trail text : List Char}
    (h : Spaced Text.isBlank [name, [':'], typeName, ['\x7b'], key, ['='], '"' :: (body ++ ['"']),
      trail, ['\x7d']] text)
    (hname : IsIdentifier name) (htype : IsIdentifier typeName) (hkey : IsIdentifier key)
    (hbody : Unquoted '"' body) (htrail : ∀ c ∈ trail, c = ';' ∨ Text.isBlank c = true)
    (hnew : Dictionary.contains (String.ofList name) found = false) (rest : List Char) :
    outcome (readAfter found (text ++ rest)) =
      outcome (readAfter (Dictionary.insert (String.ofList name)
        ⟨String.ofList name, String.ofList typeName,
          [(String.ofList key, .quoted (String.ofList ('"' :: (body ++ ['"']))))]⟩ found)
        rest) := by
  have htrailPlain : ∀ c ∈ trail, c ≠ '"' ∧ c ≠ '/' := by
    intro c hc
    refine ⟨?_, ?_⟩ <;> rintro rfl <;> exact absurd (htrail _ hc) (by decide)
  have hmark {c : Char} (h : c ≠ '"' ∧ c ≠ '/') : Lexeme.Lexes [c] [.plain c] := .plain h.1 h.2
  let parts : List (List Char × List Lexeme) :=
    [(name, name.map .plain), ([':'], [.plain ':']), (typeName, typeName.map .plain),
      (['\x7b'], [.plain '\x7b']), (key, key.map .plain), (['='], [.plain '=']),
      ('"' :: (body ++ ['"']), [.literal body]), (trail, trail.map .plain),
      (['\x7d'], [.plain '\x7d'])]
  have hparts : ∀ p ∈ parts, Lexeme.Lexes p.1 p.2 := by
    simp only [parts, List.forall_mem_cons]
    exact ⟨hname.lexes, hmark (by decide), htype.lexes, hmark (by decide), hkey.lexes,
      hmark (by decide), .literal hbody, .plains htrailPlain, hmark (by decide), nofun⟩
  obtain ⟨ls, hls, hspaced⟩ := Lexeme.Lexes.spaced (show Spaced _ (parts.map Prod.fst) text from h)
    hparts
  have hliteral : Stretch.Solid [.literal body] := by
    refine ⟨List.cons_ne_nil _ _, ?_, ?_⟩
    · simp [Lexeme.isBlank]
    · simp
  have hskipped : ∀ l ∈ trail.map Lexeme.plain, Stretch.isSkipped (some ';') l = true := by
    intro l hl
    obtain ⟨c, hc, rfl⟩ := List.mem_map.1 hl
    rcases htrail c hc with rfl | hblank
    · rfl
    · simp [Stretch.isSkipped, Lexeme.isBlank, hblank]
  have hlex : outcome (Lexeme.lex (text ++ rest)) = outcome ((Lexeme.lex rest).map (ls ++ ·)) := by
    rw [Lexeme.lex, hls, outcome_map, outcome_map]
    exact congrArg _ (Lexeme.outcome_lexFrom _ _ rest)
  refine outcome_readAfter_of_lex hlex fun more => ?_
  rw [← masked_plains name] at hnew
  have hread := Stretch.outcome_declarations_of_spaced hspaced hname.solid htype.solid hkey.solid
    hliteral hskipped hnew 0 0 more
  simpa only [masked_plains, restored_plains, Stretch.writtenValue_literal] using hread

end PageEngine
