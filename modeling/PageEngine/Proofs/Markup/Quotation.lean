import PageEngine.Association
import PageEngine.Declaration.Lexeme
import PageEngine.Proofs.Markup.Readback

/-! Texts between double quotes. A backslash is put before every backslash, quote and dollar sign,
and line feeds, carriage returns and tabs are written with letters. What is written so is passed
over whole by the reader of a tag and by the reader of declarations, does not look dynamic, and
stands for the text again. -/

namespace PageEngine

namespace Quotation

/-- A character as it is written between double quotes. -/
def writeChar (c : Char) : List Char :=
  if c = '\\' ∨ c = '"' ∨ c = '$' then ['\\', c]
  else if c = '\n' then ['\\', 'n']
  else if c = '\r' then ['\\', 'r']
  else if c = '\t' then ['\\', 't']
  else [c]

/-- What stands between the quotes. -/
def body (text : List Char) : List Char :=
  text.flatMap writeChar

/-- The text in double quotes. -/
def literal (text : String) : String :=
  String.ofList ('"' :: (body text.toList ++ ['"']))

@[simp] theorem body_nil : body [] = [] := rfl

@[simp] theorem body_cons (c : Char) (cs : List Char) : body (c :: cs) = writeChar c ++ body cs :=
  rfl

@[simp] theorem toList_literal (text : String) :
    (literal text).toList = '"' :: (body text.toList ++ ['"']) := by
  simp [literal]

/-- A character is written as an escape that stands for it, or as itself. -/
theorem writeChar_cases (c : Char) :
    (∃ d, writeChar c = ['\\', d] ∧ Association.escaped? d = some c) ∨
      writeChar c = [c] ∧ c ≠ '\\' ∧ c ≠ '"' ∧ c ≠ '$' := by
  unfold writeChar
  by_cases hself : c = '\\' ∨ c = '"' ∨ c = '$'
  · rw [if_pos hself]
    obtain rfl | rfl | rfl := hself <;> exact .inl ⟨_, rfl, rfl⟩
  rw [if_neg hself]
  simp only [not_or] at hself
  by_cases hline : c = '\n'
  · rw [if_pos hline]
    exact .inl ⟨'n', rfl, by rw [hline]; rfl⟩
  rw [if_neg hline]
  by_cases hreturn : c = '\r'
  · rw [if_pos hreturn]
    exact .inl ⟨'r', rfl, by rw [hreturn]; rfl⟩
  rw [if_neg hreturn]
  by_cases htab : c = '\t'
  · rw [if_pos htab]
    exact .inl ⟨'t', rfl, by rw [htab]; rfl⟩
  rw [if_neg htab]
  exact .inr ⟨rfl, hself⟩

/-! ### The readers pass over it -/

theorem unquoted_body (text : List Char) : Unquoted '"' (body text) := by
  induction text with
  | nil => trivial
  | cons c cs ih =>
    rw [body_cons]
    obtain ⟨d, hwritten, -⟩ | ⟨hwritten, hslash, hquote, -⟩ := writeChar_cases c
    · simpa [hwritten, Unquoted] using ih
    · simp [hwritten, Unquoted, hslash, hquote, ih]

theorem printable_literal (text : String) : (BindingValue.quoted (literal text)).Printable :=
  ⟨'"', body text.toList, rfl, unquoted_body _, toList_literal text⟩

end Quotation

/-- A body without a bare quote ends at the quote that follows it. -/
theorem Lexeme.takeLiteral_append {body : List Char} (h : Unquoted '"' body) (rest : List Char) :
    takeLiteral (body ++ '"' :: rest) = some (body, rest) := by
  fun_induction Unquoted '"' body with
  | case1 => rfl
  | case2 c cs ih => simp [takeLiteral, ih h]
  | case3 c cs _ ih =>
    obtain ⟨hslash, hquote, hcs⟩ := h
    simp [takeLiteral, hslash, ih hcs]

/-! ### What it stands for -/

namespace Association

theorem unescape_cons {whole : String} {c : Char} (hc : c ≠ '\\') (cs : List Char) :
    unescape whole (c :: cs) = (unescape whole cs).map (c :: ·) := by
  simp [unescape, hc]

theorem unescape_escaped {whole : String} {c d : Char} (h : escaped? d = some c) (cs : List Char) :
    unescape whole ('\\' :: d :: cs) = (unescape whole cs).map (c :: ·) := by
  simp [unescape, h]

theorem unescape_body (whole : String) (text : List Char) :
    unescape whole (Quotation.body text) = .ok text := by
  induction text with
  | nil => rfl
  | cons c cs ih =>
    rw [Quotation.body_cons]
    obtain ⟨d, hwritten, hescaped⟩ | ⟨hwritten, hslash, -⟩ := Quotation.writeChar_cases c
    · rw [hwritten, List.cons_append, List.singleton_append, unescape_escaped hescaped, ih]
      rfl
    · rw [hwritten, List.singleton_append, unescape_cons hslash, ih]
      rfl

theorem stripQuotes_of_quoted {text : String} {body : List Char}
    (h : text.toList = '"' :: (body ++ ['"'])) : stripQuotes text = .ok body := by
  have hquoted := betweenQuotes?_of_quoted (q := '"') rfl body
  rw [stripQuotes, h, hquoted]

theorem stripQuotes_literal (text : String) :
    stripQuotes (Quotation.literal text) = .ok (Quotation.body text.toList) :=
  stripQuotes_of_quoted (Quotation.toList_literal text)

/-- No dollar sign stands in front. -/
theorem body_ne_dollar (text cs : List Char) : Quotation.body text ≠ '$' :: cs := by
  cases text with
  | nil => nofun
  | cons c text =>
    rw [Quotation.body_cons]
    obtain ⟨d, hwritten, -⟩ | ⟨hwritten, -, -, hdollar⟩ := Quotation.writeChar_cases c
    · simp [hwritten]
    · simp [hwritten, hdollar]

/-- A text written in double quotes is that text, on a tag and in a declaration. -/
theorem ofBinding_literal (isInline : Bool) (text : String) :
    ofBinding isInline (.quoted (Quotation.literal text)) = .ok (.constant (.text text)) := by
  have hconstant (whole : String) : ((unescape whole (Quotation.body text.toList)).map fun cs =>
      Association.constant (.text (String.ofList cs))) = .ok (.constant (.text text)) := by
    rw [unescape_body, Except.map, String.ofList_toList]
  cases isInline with
  | false => rw [ofBinding_declared (stripQuotes_literal text), hconstant]
  | true =>
    rw [ofBinding, stripQuotes_literal]
    dsimp only
    split
    · rename_i hdollar
      exact absurd hdollar (body_ne_dollar _ _)
    · exact hconstant _

end Association

end PageEngine
