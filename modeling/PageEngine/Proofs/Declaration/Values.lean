import Mathlib.Data.List.Chain
import PageEngine.Proofs.Declaration.Composition

/-! What declarations can hold. A quoted value is one literal. A value without quotes has no double
quote from a literal, or no two slashes in a row, since these would begin a comment. So the mark
that is dropped from dynamic values of tags is never found in it. -/

namespace PageEngine

theorem unquoted_cons {quote c : Char} {cs : List Char} (hslash : c ≠ '\\') (hquote : c ≠ quote)
    (h : Unquoted quote cs) : Unquoted quote (c :: cs) := by
  unfold Unquoted
  split
  · trivial
  · rename_i heq
    exact absurd (List.cons.inj heq).1 hslash
  · rename_i heq
    cases heq
    exact ⟨hslash, hquote, h⟩

/-! ### Lexemes -/

namespace Lexeme

variable {ls more : List Lexeme}

theorem unquoted_of_takeLiteral {cs body rest : List Char}
    (h : takeLiteral cs = some (body, rest)) : Unquoted '"' body := by
  fun_induction takeLiteral cs generalizing body with
  | case1 => cases h
  | case2 =>
    cases h
    trivial
  | case3 c cs ih =>
    obtain ⟨⟨inner, after⟩, hinner, heq⟩ := Option.map_eq_some_iff.1 h
    cases heq
    have hrest : Unquoted '"' inner := ih hinner
    exact hrest
  | case4 c cs hquote hpair ih =>
    obtain ⟨⟨inner, after⟩, hinner, heq⟩ := Option.map_eq_some_iff.1 h
    cases heq
    refine unquoted_cons ?_ hquote (ih hinner)
    rintro rfl
    cases cs with
    | nil => cases hinner
    | cons x xs => exact hpair x xs rfl rfl

/-- Lexemes as they are read from a text: literals end at the first quote that can end them, and two
slashes are a comment. -/
structure AsRead (ls : List Lexeme) : Prop where
  literal : ∀ body, .literal body ∈ ls → Unquoted '"' body
  slashes : ls.IsChain fun l m => l = .plain '/' → m ≠ .plain '/'

namespace AsRead

theorem mono (h : AsRead ls) (hmore : more <:+: ls) : AsRead more where
  literal body hbody := h.literal body (hmore.subset hbody)
  slashes := h.slashes.infix hmore

theorem cons {l : Lexeme} (h : AsRead ls) (hliteral : ∀ body, l = .literal body → Unquoted '"' body)
    (hslash : l = .plain '/' → ls.head? ≠ some (.plain '/')) : AsRead (l :: ls) where
  literal body hbody := by
    rcases List.mem_cons.1 hbody with heq | hbody
    · exact hliteral body heq.symm
    · exact h.literal body hbody
  slashes := List.isChain_cons.2
    ⟨fun m hm heq hplain => hslash heq (hplain ▸ hm), h.slashes⟩

theorem of_lexFrom {offset : Nat} {cs : List Char} (h : lexFrom offset cs = .ok ls) :
    AsRead ls := by
  fun_induction lexFrom offset cs generalizing ls with
  | case1 =>
    cases h
    exact ⟨fun _ hbody => (List.not_mem_nil hbody).elim, .nil⟩
  | case2 => cases h
  | case3 =>
    rename_i ih
    obtain ⟨found, hfound, rfl⟩ := exists_of_map_ok h
    exact (ih hfound).cons (fun _ => Lexeme.noConfusion) Lexeme.noConfusion
  | case4 =>
    rename_i ih
    obtain ⟨found, hfound, rfl⟩ := exists_of_map_ok h
    exact (ih hfound).cons (fun _ => Lexeme.noConfusion) Lexeme.noConfusion
  | case5 => cases h
  | case6 _ _ _ _ hliteral =>
    rename_i ih
    obtain ⟨found, hfound, rfl⟩ := exists_of_map_ok h
    refine (ih hfound).cons (fun body heq => ?_) Lexeme.noConfusion
    exact Lexeme.literal.inj heq ▸ unquoted_of_takeLiteral hliteral
  | case7 _ c cs _ hline _ ih =>
    obtain ⟨found, hfound, rfl⟩ := exists_of_map_ok h
    refine (ih hfound).cons (by rintro _ ⟨⟩) fun heq hhead => ?_
    -- A slash that follows would begin a comment.
    obtain ⟨later, rfl⟩ := List.head?_eq_some_iff.1 hhead
    cases heq
    exact hline _ rfl (written_of_lexFrom hfound).symm

end AsRead

end Lexeme

/-! ### Neighbours in a text -/

namespace Association

variable {a b : Char} {xs ys : List Char}

theorem adjacent_cons_of_head?_ne {x : Char} (h : x = a → ys.head? ≠ some b) :
    adjacent a b (x :: ys) = adjacent a b ys := by
  cases ys with
  | nil => rfl
  | cons y ys =>
    have hpair : (x == a && y == b) = false := by
      rw [Bool.and_eq_false_imp]
      exact fun hx => beq_eq_false_iff_ne.2 fun hy => h (eq_of_beq hx) (congrArg some hy)
    rw [adjacent, hpair, Bool.false_or]

theorem adjacent_append_of_not_mem (h : a ∉ xs) : adjacent a b (xs ++ ys) = adjacent a b ys := by
  induction xs with
  | nil => rfl
  | cons x xs ih =>
    obtain ⟨hx, hxs⟩ := not_or.1 (List.mem_cons.not.1 h)
    rw [List.cons_append, adjacent_cons_of_head?_ne fun heq => absurd heq.symm hx, ih hxs]

theorem adjacent_append_cons (xs ys : List Char) : adjacent a b (xs ++ a :: b :: ys) = true := by
  induction xs with
  | nil => simp [adjacent]
  | cons x xs ih =>
    cases hxs : xs ++ a :: b :: ys with
    | nil => simp at hxs
    | cons y rest =>
      rw [List.cons_append, hxs, adjacent, ← hxs, ih, Bool.or_true]

theorem eq_append_of_beforeEnding? {ending cs before : List Char}
    (h : beforeEnding? ending cs = some before) : cs = before ++ ending := by
  unfold beforeEnding? at h
  split at h
  · rename_i hsuffix
    cases h
    obtain ⟨start, rfl⟩ := List.isSuffixOf_iff_suffix.1 hsuffix
    rw [List.length_append, Nat.add_sub_cancel, List.take_left]
  · cases h

/-- Without two slashes in a row there is no mark. -/
theorem dropMark_of_not_adjacent (h : adjacent '/' '/' xs = false) : dropMark xs = xs := by
  unfold dropMark
  cases hvalid : beforeEnding? ['V', 'A', 'L', 'I', 'D'] xs with
  | none => rfl
  | some before =>
    rw [Option.bind_some]
    cases hslashes : beforeEnding? ['/', '/'] (Text.trimEnd before) with
    | none => rfl
    | some start =>
      obtain ⟨blanks, hblanks⟩ : Text.trimEnd before <+: before := by
        rw [← List.reverse_suffix, Text.trimEnd, List.reverse_reverse]
        exact List.dropWhile_suffix _
      have heq : xs = start ++ '/' :: '/' :: (blanks ++ ['V', 'A', 'L', 'I', 'D']) := by
        rw [eq_append_of_beforeEnding? hvalid, ← hblanks, eq_append_of_beforeEnding? hslashes]
        simp
      rw [heq, adjacent_append_cons] at h
      cases h

end Association

namespace Lexeme

variable {ls : List Lexeme}

theorem slash_not_mem_masked {l : Lexeme} (hblank : l.isBlank = true) (hplain : ∀ c, l ≠ .plain c) :
    '/' ∉ l.masked := by
  have hmem {text : List Char} : '/' ∉ text.flatMap blankOut := fun hmem => by
    obtain ⟨x, -, hx⟩ := List.mem_flatMap.1 hmem
    rcases mem_blankOut hx with heq | heq <;> cases heq
  cases l with
  | plain c => exact absurd rfl (hplain c)
  | lineComment text => exact hmem
  | blockComment text => exact hmem
  | literal => cases hblank

theorem masked_ne_nil (l : Lexeme) : l.masked ≠ [] := by
  cases l with
  | plain c => exact List.cons_ne_nil _ _
  | literal body => exact List.cons_ne_nil _ _
  | lineComment text => exact List.cons_ne_nil ' ' _
  | blockComment text => exact List.cons_ne_nil ' ' _

/-- Two slashes in a row are in no text without literals. -/
theorem AsRead.not_adjacent_restored (h : AsRead ls) (hquote : '"' ∉ ls.flatMap restored) :
    Association.adjacent '/' '/' (ls.flatMap restored) = false := by
  induction ls with
  | nil => rfl
  | cons l ls ih =>
    rw [List.flatMap_cons] at hquote ⊢
    obtain ⟨hfirst, hrest⟩ := not_or.1 (List.mem_append.not.1 hquote)
    have ih := ih (h.mono (List.suffix_cons l ls).isInfix) hrest
    cases l with
    | literal body => exact absurd List.mem_cons_self hfirst
    | lineComment text =>
      have hslash := (slash_not_mem_masked (l := .lineComment text) rfl fun _ heq => nomatch heq)
      exact (Association.adjacent_append_of_not_mem hslash).trans ih
    | blockComment text =>
      have hslash := (slash_not_mem_masked (l := .blockComment text) rfl fun _ heq => nomatch heq)
      exact (Association.adjacent_append_of_not_mem hslash).trans ih
    | plain c =>
      refine (Association.adjacent_cons_of_head?_ne fun hc hhead => ?_).trans ih
      cases ls with
      | nil => cases hhead
      | cons m rest =>
        -- What begins with a slash is a plain one.
        have hplain : m = .plain '/' := by
          cases m with
          | plain x => exact congrArg plain (Option.some.inj hhead)
          | lineComment => cases hhead
          | blockComment => cases hhead
          | literal => cases hhead
        have hnext := (List.isChain_cons.1 h.slashes).1 m rfl
        exact hnext (congrArg plain hc) hplain

end Lexeme

/-! ### Values -/

/-- A value as declarations can hold it. -/
def BindingValue.IsDeclared : BindingValue → Prop
  | .quoted text => ∃ body, Unquoted '"' body ∧ text.toList = '"' :: (body ++ ['"'])
  | .bare text => '"' ∉ text.toList → Association.adjacent '/' '/' text.toList = false
  | .present => False

namespace Stretch

open Lexeme (AsRead)

variable {c : Char} {ls before after : List Lexeme} {line : Stretch}

theorem infix_trimmed (separator : Option Char) (ls : List Lexeme) :
    trimmed separator ls <:+: ls := by
  have hprefix : trimmed separator ls <+: ls.dropWhile (isSkipped separator) := by
    rw [← List.reverse_suffix, trimmed, List.reverse_reverse]
    exact List.dropWhile_suffix _
  exact hprefix.isInfix.trans (List.dropWhile_suffix _).isInfix

theorem infix_of_cut (h : cut c ls = some (before, after)) : before <:+: ls ∧ after <:+: ls := by
  rw [eq_of_cut h]
  exact ⟨(List.prefix_append ..).isInfix,
    (((List.suffix_cons _ after).trans (List.suffix_append ..))).isInfix⟩

theorem isDeclared_of_binding? {key : String} {value : BindingValue} (hline : AsRead line.lexemes)
    (h : line.binding? = .ok (some (key, value))) : value.IsDeclared := by
  have htrim := hline.mono (infix_trimmed none _)
  rw [← lexemes_trim] at htrim
  unfold binding? at h
  dsimp only at h
  split at h
  · cases h
  · cases hcut : cut '=' line.trim.lexemes with
    | none =>
      rw [cutAt_eq_map, hcut] at h
      cases h
    | some parts =>
      obtain ⟨left, right⟩ := parts
      rw [cutAt_eq_map, hcut] at h
      dsimp only [Option.map_some] at h
      split at h
      · cases h
      · have hvalue : AsRead (trimmed none right) :=
          (htrim.mono (infix_of_cut hcut).2).mono (infix_trimmed none right)
        rw [← lexemes_trim ⟨line.trim.offset + size left + 1, right⟩] at hvalue
        split at h
        · cases h
        · rename_i body hbody
          cases h
          refine ⟨body, hvalue.literal body (hbody ▸ List.mem_cons_self), ?_⟩
          rw [restored, hbody, String.toList_ofList]
          simp [Lexeme.restored]
        · cases h
          intro hquote
          rw [restored, String.toList_ofList] at hquote ⊢
          exact hvalue.not_adjacent_restored hquote

theorem infix_of_mem_pieces {s : Stretch} (h : line ∈ s.pieces c) :
    line.lexemes <:+: s.lexemes := by
  fun_induction pieces c s with
  | case1 s => exact List.mem_singleton.1 h ▸ List.infix_rfl
  | case2 s before after hcut ih =>
    obtain ⟨⟨left, right⟩, hparts, heq⟩ := Option.map_eq_some_iff.1 hcut
    cases heq
    obtain ⟨hleft, hright⟩ := infix_of_cut hparts
    rcases List.mem_cons.1 h with rfl | h
    · exact hleft
    · exact (ih h).trans hright

theorem isDeclared_of_bindingsOf {lines : List Stretch} {found b : Bindings}
    (h : bindingsOf found lines = .ok b) (hlines : ∀ line ∈ lines, AsRead line.lexemes)
    (hfound : ∀ key value, (key, value) ∈ found → value.IsDeclared) :
    ∀ key value, (key, value) ∈ b → value.IsDeclared := by
  induction lines generalizing found with
  | nil =>
    obtain rfl := Except.ok.inj h
    exact hfound
  | cons line rest ih =>
    obtain ⟨hline, hrest⟩ := List.forall_mem_cons.1 hlines
    rw [bindingsOf] at h
    split at h
    · cases h
    · exact ih h hrest hfound
    · rename_i hentry
      refine ih h hrest fun key value hmem => ?_
      rcases Dictionary.mem_insert hmem with heq | hmem
      · cases heq
        exact isDeclared_of_binding? hline hentry
      · exact hfound key value hmem

end Stretch

/-! ### Declarations -/

/-- What every declaration that is read has: a name, and values of these kinds. -/
structure Declaration.IsRead (d : Declaration) : Prop where
  name_ne_nil : d.name.toList ≠ []
  value : ∀ key value, (key, value) ∈ d.bindings → value.IsDeclared

/-- Each declaration stands under its name and was read. -/
def Declarations.AllRead (declarations : Declarations) : Prop :=
  ∀ name d, (name, d) ∈ declarations → d.name = name ∧ d.IsRead

namespace Stretch

theorem isRead_of_declaration {header body : Stretch} {d : Declaration}
    (hbody : Lexeme.AsRead body.lexemes) (h : declaration header body = .ok d) : d.IsRead := by
  unfold declaration at h
  split at h
  · cases h
  · dsimp only at h
    split at h
    · cases h
    · rename_i left _ _ hname
      split at h
      · cases h
      · obtain ⟨b, hb, rfl⟩ := exists_of_map_ok h
        have hlines : ∀ line ∈ body.pieces ';', Lexeme.AsRead line.lexemes :=
          fun line hline => hbody.mono (infix_of_mem_pieces hline)
        refine ⟨fun hnil => hname ?_,
          isDeclared_of_bindingsOf hb hlines fun _ _ hmem => nomatch hmem⟩
        rw [masked, String.toList_ofList, List.flatMap_eq_nil_iff] at hnil
        exact List.isEmpty_iff.2 (List.eq_nil_iff_forall_not_mem.2 fun l hl =>
          l.masked_ne_nil (hnil l hl))

theorem allRead_of_declarations {s : Stretch} {found all : Declarations}
    (h : declarations found s = .ok all) (hs : Lexeme.AsRead s.lexemes) (hfound : found.AllRead) :
    all.AllRead := by
  fun_induction declarations found s with
  | case1 =>
    obtain rfl := Except.ok.inj h
    exact hfound
  | case2 => cases h
  | case3 => cases h
  | case4 => cases h
  | case5 => cases h
  | case6 found s header inside hopen body rest hclose trimmed d hd hnew ih =>
    obtain ⟨_, hbefore, heq⟩ := Option.map_eq_some_iff.1 hopen
    cases heq
    obtain ⟨_, hblock, heq⟩ := Option.map_eq_some_iff.1 hclose
    cases heq
    have hinside := hs.mono (infix_of_cut hbefore).2
    obtain ⟨hbody, hrest⟩ := infix_of_cut hblock
    refine ih h (hinside.mono hrest) fun name other hmem => ?_
    rcases Dictionary.mem_insert hmem with heq | hmem
    · cases heq
      exact ⟨rfl, isRead_of_declaration (hinside.mono hbody) hd⟩
    · exact hfound name other hmem

end Stretch

theorem Declarations.allRead_of_parse {source : String} {declarations : Declarations}
    (h : Declarations.parse source = .ok declarations) : declarations.AllRead := by
  obtain ⟨lexemes, hlex, hread⟩ := lex_of_parse h
  exact Stretch.allRead_of_declarations hread (Lexeme.AsRead.of_lexFrom hlex)
    fun _ _ hmem => nomatch hmem

end PageEngine
