import PageEngine.Engine
import PageEngine.Proofs.Declaration.Values
import PageEngine.Proofs.Markup.Quotation

/-! Declared elements written on tags of their own. A value without quotes gets them, and a dollar
sign in front; a quoted value that begins with a dollar sign gets a backslash before it. On the tag
they come to what they are in the declaration. Only an unknown escape behind a dollar sign differs,
since the error shows the text in which it was found. -/

namespace PageEngine

/-! ### Values -/

namespace BindingValue

/-- The value of a declaration as it is written on a tag. -/
def inlined : BindingValue → BindingValue
  | .quoted text =>
    match text.toList with
    | '"' :: '$' :: rest => .quoted (String.ofList ('"' :: '\\' :: '$' :: rest))
    | _ => .quoted text
  | .bare text => .quoted (String.ofList ('"' :: '$' :: (text.toList ++ ['"'])))
  | .present => .present

/-- The words that stand for truth values in declarations. -/
def truthWords : List String := ["true", "yes", "false", "no", "nil", "null"]

/-- A value without quotes can be quoted as it is, and is a truth word only if it is one on tags. -/
def CanInline : BindingValue → Prop
  | .bare text => '"' ∉ text.toList ∧ '\\' ∉ text.toList ∧
    (String.ofList (text.toList.map Char.toLower) ∈ truthWords → text = "true" ∨ text = "false")
  | _ => True

variable {value : BindingValue}

theorem inlined_quoted_dollar {text : String} {body : List Char}
    (h : text.toList = '"' :: '$' :: (body ++ ['"'])) :
    inlined (.quoted text) = .quoted (String.ofList ('"' :: '\\' :: '$' :: (body ++ ['"']))) := by
  rw [inlined, h]
  rfl

theorem inlined_quoted {text : String} {body : List Char} (h : text.toList = '"' :: (body ++ ['"']))
    (hdollar : ∀ rest, body ≠ '$' :: rest) : inlined (.quoted text) = .quoted text := by
  rw [inlined, h]
  split
  · rename_i heq
    cases body with
    | nil => cases heq
    | cons c cs => exact absurd rfl ((List.cons.inj (List.cons.inj heq).2).1 ▸ hdollar cs)
  · rfl

theorem unquoted_of_not_mem {cs : List Char} (hquote : '"' ∉ cs) (hslash : '\\' ∉ cs) :
    Unquoted '"' cs := by
  induction cs with
  | nil => trivial
  | cons c cs ih =>
    obtain ⟨hc, hcs⟩ := not_or.1 (List.mem_cons.not.1 hquote)
    obtain ⟨hc', hcs'⟩ := not_or.1 (List.mem_cons.not.1 hslash)
    exact unquoted_cons (Ne.symm hc') (Ne.symm hc) (ih hcs hcs')

theorem unquoted_dollar {cs : List Char} : Unquoted '"' ('$' :: cs) ↔ Unquoted '"' cs :=
  ⟨fun h => h.2.2, unquoted_cons (by decide) (by decide)⟩

theorem unquoted_escaped {cs : List Char} (c : Char) :
    Unquoted '"' ('\\' :: c :: cs) ↔ Unquoted '"' cs := Iff.rfl

/-- What is written on the tag is a value that can stand there. -/
theorem printable_inlined (hvalue : value.IsDeclared) (h : value.CanInline) :
    value.inlined.Printable := by
  cases value with
  | present => trivial
  | bare text =>
    obtain ⟨hquote, hslash, -⟩ := h
    exact ⟨'"', '$' :: text.toList, rfl, unquoted_dollar.2 (unquoted_of_not_mem hquote hslash),
      String.toList_ofList⟩
  | quoted text =>
    obtain ⟨body, hbody, htext⟩ := hvalue
    by_cases hdollar : ∃ rest, body = '$' :: rest
    · obtain ⟨rest, rfl⟩ := hdollar
      rw [inlined_quoted_dollar htext]
      exact ⟨'"', '\\' :: '$' :: rest, rfl, (unquoted_escaped '$').2 (unquoted_dollar.1 hbody),
        String.toList_ofList⟩
    · rw [inlined_quoted htext (not_exists.1 hdollar)]
      exact ⟨'"', body, rfl, hbody, htext⟩

end BindingValue

/-! ### Associations -/

namespace Association

open BindingValue

/-- The words that only declarations know do not decide here. -/
theorem truthWord?_of_canInline {text : String} (h : CanInline (.bare text)) :
    truthWord? true text.toList = truthWord? false text.toList := by
  by_cases hword : String.ofList (text.toList.map Char.toLower) ∈ truthWords
  · rcases h.2.2 hword with rfl | rfl <;> decide
  · have hself {word : String} (hmem : word ∈ truthWords)
        (hlower : word.toList.map Char.toLower = word.toList) : text ≠ word := by
      rintro rfl
      rw [hlower, String.ofList_toList] at hword
      exact hword hmem
    have htrue : text ≠ "true" := hself (by decide) (by decide)
    have hfalse : text ≠ "false" := hself (by decide) (by decide)
    simp only [truthWords, List.mem_cons, List.not_mem_nil, or_false, not_or] at hword
    obtain ⟨h1, h2, h3, h4, h5, h6⟩ := hword
    simp [truthWord?, htrue, hfalse, h1, h2, h3, h4, h5, h6]

theorem ofDynamic_of_canInline {text : String} (h : CanInline (.bare text)) :
    ofDynamic true text.toList = ofDynamic false text.toList := by
  unfold ofDynamic
  rw [truthWord?_of_canInline h]

/-- Of a text that can stand between quotes only an unknown escape cannot be replaced. -/
theorem unescape_cases {cs : List Char} (h : Unquoted '"' cs) :
    (∃ shown, ∀ whole, unescape whole cs = .ok shown) ∨
      ∃ c, ∀ whole, unescape whole cs = .error (.invalidEscape whole c) := by
  fun_induction Unquoted '"' cs with
  | case1 => exact .inl ⟨[], fun _ => rfl⟩
  | case2 c cs ih =>
    cases hescaped : escaped? c with
    | none => exact .inr ⟨c, fun whole => by simp [unescape, hescaped]⟩
    | some d =>
      simp only [unescape_escaped hescaped]
      rcases ih h with ⟨shown, hshown⟩ | ⟨x, hx⟩
      · exact .inl ⟨d :: shown, fun whole => by rw [hshown whole]; rfl⟩
      · exact .inr ⟨x, fun whole => by rw [hx whole]; rfl⟩
  | case3 c cs _ ih =>
    obtain ⟨hslash, -, hcs⟩ := h
    simp only [unescape_cons hslash]
    rcases ih hcs with ⟨shown, hshown⟩ | ⟨x, hx⟩
    · exact .inl ⟨c :: shown, fun whole => by rw [hshown whole]; rfl⟩
    · exact .inr ⟨x, fun whole => by rw [hx whole]; rfl⟩

/-- A dollar sign behind the quote makes a value of a tag dynamic. -/
theorem ofBinding_inline_dynamic {text : String} {body : List Char}
    (htext : text.toList = '"' :: '$' :: (body ++ ['"'])) :
    ofBinding true (.quoted text) = ofDynamic true (dropMark body) := by
  have hinner : stripQuotes text = .ok ('$' :: body) := stripQuotes_of_quoted htext
  rw [ofBinding, hinner]
  rfl

/-- Without a dollar sign behind the quote it is a constant. -/
theorem ofBinding_inline_constant {text : String} {body : List Char}
    (htext : text.toList = '"' :: (body ++ ['"'])) (hdollar : ∀ rest, body ≠ '$' :: rest) :
    ofBinding true (.quoted text) = (unescape (String.ofList body) body).map fun cs =>
      .constant (.text (String.ofList cs)) := by
  rw [ofBinding, stripQuotes_of_quoted htext]
  dsimp only
  split
  · exact absurd rfl (hdollar _)
  · rfl

end Association

/-- Both values are the same association, or both have an unknown escape behind a dollar sign. -/
inductive BindingValue.SameInlined (value : BindingValue) : Prop
  | same (h : Association.ofBinding true value.inlined = Association.ofBinding false value)
  | escape {body : List Char} {c : Char}
    (hvalue : value = .quoted (String.ofList ('"' :: '$' :: (body ++ ['"']))))
    (hdeclared : Association.ofBinding false value =
      .error (.invalidEscape (String.ofList ('$' :: body)) c))
    (hinline : Association.ofBinding true value.inlined =
      .error (.invalidEscape (String.ofList ('\\' :: '$' :: body)) c))

namespace Association

open BindingValue

theorem ofBinding_bare_inlined {text : String} (hvalue : IsDeclared (.bare text))
    (h : CanInline (.bare text)) :
    ofBinding true (BindingValue.bare text).inlined = ofBinding false (.bare text) := by
  have hunmarked : dropMark text.toList = text.toList := dropMark_of_not_adjacent (hvalue h.1)
  rw [inlined, ofBinding_inline_dynamic String.toList_ofList, hunmarked, ofDynamic_of_canInline h,
    ofBinding_bare]

theorem sameInlined (value : BindingValue) (hvalue : value.IsDeclared) (h : value.CanInline) :
    value.SameInlined := by
  cases value with
  | present => exact .same rfl
  | bare text => exact .same (ofBinding_bare_inlined hvalue h)
  | quoted text =>
    obtain ⟨body, hbody, htext⟩ := hvalue
    have hdeclared := ofBinding_declared (stripQuotes_of_quoted htext)
    by_cases hdollar : ∃ rest, body = '$' :: rest
    · obtain ⟨rest, rfl⟩ := hdollar
      -- The backslash makes the text a constant, and is gone with the escape.
      have hescaped : (String.ofList ('"' :: '\\' :: '$' :: (rest ++ ['"']))).toList =
          '"' :: ('\\' :: '$' :: rest ++ ['"']) := String.toList_ofList
      have hinline := ofBinding_inline_constant hescaped nofun
      rw [← inlined_quoted_dollar htext] at hinline
      rw [unescape_cons (by decide)] at hdeclared
      rw [unescape_escaped (c := '$') rfl] at hinline
      rcases unescape_cases (unquoted_dollar.1 hbody) with ⟨shown, hshown⟩ | ⟨c, hc⟩
      · rw [hshown] at hdeclared hinline
        exact .same (hinline.trans hdeclared.symm)
      · rw [hc] at hdeclared hinline
        refine .escape ?_ hdeclared hinline
        rw [← String.ofList_toList (s := text), htext]
        rfl
    · have hdollar := not_exists.1 hdollar
      refine .same ?_
      rw [inlined_quoted htext hdollar, ofBinding_inline_constant htext hdollar, hdeclared]

end Association

/-! ### Elements -/

/-- A declaration that can be written on a tag: its type is a word, and its keys and values are
such as can stand there. -/
structure Declaration.CanInline (d : Declaration) : Prop where
  typeStart : ∃ c ∈ d.typeName.toList.head?, c.isAlphanum = true
  typeName : ∀ c ∈ d.typeName.toList, isIdentifierChar c = true
  key : ∀ key value, (key, value) ∈ d.bindings →
    key ≠ "" ∧ ∀ c ∈ key.toList, Cursor.isKeyChar c = true
  value : ∀ key value, (key, value) ∈ d.bindings → value.CanInline

namespace Bindings

/-- The bindings of a declaration as they are written on a tag. -/
def inlined (bindings : Bindings) : Bindings :=
  bindings.map fun (key, value) => (key, value.inlined)

@[simp] theorem inlined_cons (key : String) (value : BindingValue) (rest : Bindings) :
    inlined ((key, value) :: rest) = (key, value.inlined) :: inlined rest := rfl

theorem ordered_inlined {bindings : Bindings} (h : Dictionary.Ordered bindings) :
    Dictionary.Ordered (inlined bindings) :=
  List.pairwise_map.2 h

end Bindings

theorem toList_declarationSpace : declarationSpace.toList = ['w', 'o'] := by decide

/-- What the tag says on which a declared element is written. -/
def Declaration.inlineHead (d : Declaration) : ElementHead :=
  ⟨declarationSpace, d.typeName, d.bindings.inlined, true, d.typeName⟩

theorem Declaration.CanInline.printable {d : Declaration} (h : d.CanInline) (hread : d.IsRead)
    (hordered : Dictionary.Ordered d.bindings) : d.inlineHead.Printable where
  isInline := rfl
  declaredName := rfl
  space_ne_nil := by simp [inlineHead, toList_declarationSpace]
  space := by simp [inlineHead, toList_declarationSpace]
  typeStart := h.typeStart
  typeName := h.typeName
  noDirective directive heq := by
    -- The namespace is another.
    simp [ElementHead.word, inlineHead, toList_declarationSpace] at heq
  bindings :=
    { ordered := Bindings.ordered_inlined hordered
      entry := fun entry hentry => by
        obtain ⟨⟨key, value⟩, hmem, rfl⟩ := List.mem_map.1 hentry
        obtain ⟨hne, hkey⟩ := h.key key value hmem
        exact ⟨fun hnil => hne (String.toList_eq_nil_iff.1 hnil), hkey,
          BindingValue.printable_inlined (hread.value key value hmem) (h.value key value hmem)⟩ }

namespace Engine

/-- The bindings are the same associations, or the same one fails in both for an unknown escape. -/
theorem readBindings_inlined (element : String) {bindings : Bindings}
    (h : ∀ key value, (key, value) ∈ bindings → value.SameInlined) :
    readBindings element true bindings.inlined = readBindings element false bindings ∨
      ∃ key body c, (key, .quoted (String.ofList ('"' :: '$' :: (body ++ ['"'])))) ∈ bindings ∧
        readBindings element false bindings = .error (.association element key
          (.invalidEscape (String.ofList ('$' :: body)) c)) ∧
        readBindings element true bindings.inlined = .error (.association element key
          (.invalidEscape (String.ofList ('\\' :: '$' :: body)) c)) := by
  induction bindings with
  | nil => exact .inl rfl
  | cons entry rest ih =>
    obtain ⟨key, value⟩ := entry
    rw [Bindings.inlined_cons, readBindings, readBindings]
    cases h key value List.mem_cons_self with
    | escape hvalue hdeclared hinline =>
      rw [hdeclared, hinline]
      exact .inr ⟨key, _, _, hvalue ▸ List.mem_cons_self, rfl, rfl⟩
    | same hsame =>
      rw [hsame]
      cases hfirst : Association.ofBinding false value with
      | error cause => exact .inl rfl
      | ok first =>
        rcases ih fun key value hmem => h key value (List.mem_cons_of_mem _ hmem) with
          heq | ⟨later, body, c, hmem, hdeclared, hinline⟩
        · rw [heq]
          exact .inl rfl
        · rw [hdeclared, hinline]
          exact .inr ⟨later, body, c, List.mem_cons_of_mem _ hmem, rfl, rfl⟩

end Engine

end PageEngine
