import PageEngine.Proofs.Declaration.Block
import PageEngine.Proofs.Markup.RoundTrip

/-! Tags with one binding, however they are spelled: with any blanks around the parts of the
binding, closed with `/>` or by a closing tag right behind them, of an inline element or of one
that is declared under a name. A template reader that is about to read such a tag finds one
element without children and goes on behind it. -/

namespace PageEngine

open Text (byteLength byteLength_append isMarkupSpace)

/-- A binding behind the word of a tag. -/
structure OneBinding (key value text : List Char) : Prop where
  spaced : Spaced isMarkupSpace [key, ['='], value] text
  apart : ∀ c ∈ text.head?, isMarkupSpace c = true

/-- A tag ends here. -/
def AtTagEnd (tail : List Char) : Prop :=
  ∃ c rest, tail = c :: rest ∧ (c = '>' ∨ c = '/')

namespace AtTagEnd

variable {tail : List Char}

theorem stops {p : Char → Bool} (h : AtTagEnd tail) (hp : p '>' = false) (hp' : p '/' = false) :
    Stops p tail := by
  obtain ⟨c, rest, rfl, rfl | rfl⟩ := h
  · exact .cons hp
  · exact .cons hp'

end AtTagEnd

namespace Cursor

variable {offset : Nat} {more tail : List Char}

theorem stops_of_spaces {blanks : List Char} {p : Char → Bool} (h : Spaces blanks)
    (hp : ∀ c, isMarkupSpace c = true → p c = false) (htail : Stops p tail) :
    Stops p (blanks ++ tail) := by
  cases blanks with
  | nil => exact htail
  | cons c cs => exact .cons (hp c (h c List.mem_cons_self))

theorem skipSpace_append {blanks : List Char} (h : Spaces blanks) (htail : Stops isMarkupSpace tail)
    (offset : Nat) : skipSpace ⟨offset, blanks ++ tail⟩ = ⟨offset + byteLength blanks, tail⟩ :=
  skipWhile_append offset blanks h htail

theorem not_isBareChar_of_isMarkupSpace {c : Char} (h : isMarkupSpace c = true) :
    isBareChar c = false := by
  simp [isBareChar, h]

theorem not_isKeyChar_of_isMarkupSpace {c : Char} (h : isMarkupSpace c = true) :
    isKeyChar c = false := by
  simp [isKeyChar, h]

/-- A value that is written is read, before anything that ends a bare value. -/
theorem bindingValue_of_print {key : String} {value : BindingValue} {written : List Char}
    (h : Bindings.PrintableEntry (key, value)) (hwritten : value.print = '=' :: written)
    (hmore : Stops isBareChar more) (offset : Nat) :
    bindingValue ⟨offset, written ++ more⟩ = .ok (value, ⟨offset + byteLength written, more⟩) ∧
      Stops isMarkupSpace (written ++ more) := by
  cases value with
  | quoted text =>
    cases hwritten
    obtain ⟨quote, body, hquote, -, htext⟩ := h.value
    exact ⟨bindingValue_quoted h.value,
      stops_isMarkupSpace_append (by rw [htext]; rfl) (not_isMarkupSpace_of_isQuote hquote)⟩
  | bare text =>
    cases hwritten
    obtain ⟨hne, -, hbare⟩ := h.value
    exact ⟨bindingValue_bare h.value hmore, stops_isMarkupSpace_append
      (List.head?_eq_some_head hne) (not_isMarkupSpace_of_isBareChar (hbare _ (List.head_mem hne)))⟩
  | present => cases hwritten

/-- One binding with blanks around its equals sign. -/
theorem binding_of_spaces {key : String} {value : BindingValue} {before after written : List Char}
    (h : Bindings.PrintableEntry (key, value)) (hwritten : value.print = '=' :: written)
    (hbefore : Spaces before) (hafter : Spaces after) (hmore : Stops isBareChar more)
    (offset : Nat) :
    binding ⟨offset, key.toList ++ (before ++ '=' :: (after ++ (written ++ more)))⟩ =
      .ok ((key, value),
        ⟨offset + byteLength (key.toList ++ (before ++ '=' :: (after ++ written))), more⟩) := by
  have hempty : key.toList.isEmpty = false := by simpa using h.key_ne_nil
  have hkey : Stops isKeyChar (before ++ '=' :: (after ++ (written ++ more))) :=
    stops_of_spaces hbefore (fun _ => not_isKeyChar_of_isMarkupSpace) (.cons rfl)
  have hequals : Stops isMarkupSpace ('=' :: (after ++ (written ++ more))) := .cons rfl
  obtain ⟨-, hstart⟩ := bindingValue_of_print h hwritten hmore 0
  have hvalue (offset : Nat) := (bindingValue_of_print h hwritten hmore offset).1
  unfold binding
  simp only [takeWhile_append_of_all h.key hkey, hempty, skipWhile_append offset _ h.key hkey,
    skipSpace_append hbefore hequals, past, skipSpace_append hafter hstart, hvalue, Except.map,
    Bool.false_eq_true, if_false, String.ofList_toList]
  simp [Nat.add_assoc]

end Cursor

theorem OneBinding.exists_head {key value text : List Char} (h : OneBinding key value text)
    (hkey : key ≠ []) : ∃ c ∈ text.head?, isMarkupSpace c = true := by
  cases text with
  | nil =>
    obtain ⟨⟨_, _, _, hnil, _⟩, -⟩ := h
    simp [hkey] at hnil
  | cons c cs => exact ⟨c, rfl, h.apart c rfl⟩

/-- One binding, with blanks around its parts, is read from a tag. -/
theorem OneBinding.writtenAs {key : String} {value : BindingValue} {written text tail : List Char}
    (h : OneBinding key.toList written text) (hentry : Bindings.PrintableEntry (key, value))
    (hwritten : value.print = '=' :: written) (htail : AtTagEnd tail) :
    Bindings.WrittenAs [(key, value)] text tail where
  stops := by
    obtain ⟨c, hc, hspace⟩ := h.exists_head hentry.key_ne_nil
    obtain ⟨cs, rfl⟩ : ∃ cs, text = c :: cs := List.head?_eq_some_iff.1 hc
    exact .cons (Cursor.not_isBareChar_of_isMarkupSpace hspace)
  bindings := by
    obtain ⟨⟨b0, _, hb0, rfl, b1, _, hb1, rfl, b2, b3, hb2, rfl, hb3⟩, -⟩ := h
    intro offset
    have hmore : Stops Cursor.isBareChar (b3 ++ tail) :=
      Cursor.stops_of_spaces hb3 (fun _ => Cursor.not_isBareChar_of_isMarkupSpace)
        (htail.stops rfl rfl)
    have hkey : Stops isMarkupSpace (key.toList ++ (b1 ++ '=' :: (b2 ++ (written ++
        (b3 ++ tail))))) := Cursor.stops_key hentry
    have htext : b0 ++ (key.toList ++ (b1 ++ (['='] ++ (b2 ++ (written ++ b3))))) ++ tail =
        b0 ++ (key.toList ++ (b1 ++ '=' :: (b2 ++ (written ++ (b3 ++ tail))))) := by simp
    have hbinding := Cursor.binding_of_spaces hentry hwritten hb1 hb2 hmore
      (offset + byteLength b0)
    rw [← Cursor.skipSpace_append hb0 hkey] at hbinding
    obtain ⟨x, rest, rfl, hx⟩ := htail
    have hnext := Cursor.skipSpace_append hb3
      (AtTagEnd.stops ⟨x, rest, rfl, hx⟩ rfl rfl)
      (offset + byteLength b0 + byteLength (key.toList ++ (b1 ++ '=' :: (b2 ++ written))))
    rw [htext, Cursor.bindings_of_binding hbinding, Dictionary.insert,
      Cursor.bindings_of_tagEnd (by rw [hnext]) hx, hnext,
      Cursor.skipSpace_of_stops (AtTagEnd.stops ⟨x, rest, rfl, hx⟩ rfl rfl)]
    simp [Nat.add_assoc]

/-! ### Tags that name a declaration -/

namespace Cursor

/-- The word of such a tag: a keyword in any letter case. -/
def IsLegacyWord (word : List Char) : Prop :=
  String.ofList (word.map Char.toLower) ∈ legacyKeywords

variable {word rest : List Char} {declarations : Declarations} {closer : Option Closer}
variable {offset : Nat}

theorem IsLegacyWord.cases (h : IsLegacyWord word) :
    word.map Char.toLower = ['w', 'e', 'b', 'o', 'b', 'j', 'e', 'c', 't'] ∨
      word.map Char.toLower = ['w', 'o'] := by
  simp only [IsLegacyWord, legacyKeywords, List.mem_cons, List.not_mem_nil, or_false] at h
  have htoList {text : String} (h : String.ofList (word.map Char.toLower) = text) :
      word.map Char.toLower = text.toList := by rw [← h, String.toList_ofList]
  exact h.imp htoList htoList

theorem IsLegacyWord.isAlpha (h : IsLegacyWord word) : ∀ c ∈ word, c.isAlpha = true := by
  intro c hc
  have hletters := (isLower_of_mem_legacyKeywords h).2
  rw [String.toList_ofList] at hletters
  exact Text.isAlpha_of_isLower_toLower (hletters _ (List.mem_map_of_mem hc))

/-- The word begins with this letter, which no slash and no directive begins with. -/
theorem IsLegacyWord.head (h : IsLegacyWord word) :
    ∃ c cs, word = c :: cs ∧ c.toLower = 'w' := by
  rcases h.cases with h | h <;> obtain ⟨c, cs, rfl, hc, -⟩ := List.map_eq_cons_iff.1 h <;>
    exact ⟨c, cs, rfl, hc⟩

theorem afterWordAnyCase?_of_word (h : word.map Char.toLower = ['w', 'o']) :
    afterWordAnyCase? ['w', 'e', 'b', 'o', 'b', 'j', 'e', 'c', 't'] (word ++ rest) = none := by
  obtain ⟨w, ws, rfl, hw, hrest⟩ := List.map_eq_cons_iff.1 h
  obtain ⟨o, os, rfl, ho, -⟩ := List.map_eq_cons_iff.1 hrest
  simp [afterWordAnyCase?, hw, ho]

theorem legacyKeyword?_of_word (h : IsLegacyWord word)
    (hrest : ∃ c ∈ rest.head?, isMarkupSpace c = true) :
    legacyKeyword? (word ++ rest) = some (String.ofList (word.map Char.toLower)) := by
  obtain ⟨c, hc, hspace⟩ := hrest
  obtain ⟨cs, rfl⟩ : ∃ cs, rest = c :: cs := List.head?_eq_some_iff.1 hc
  have hfound {letters : List Char} (h : word.map Char.toLower = letters)
      (hlower : letters.map Char.toLower = letters) :
      afterWordAnyCase? letters (word ++ c :: cs) = some (c :: cs) :=
    afterWordAnyCase?_of_map_toLower (h.trans hlower.symm)
  rcases h.cases with h | h
  · simp [legacyKeyword?, legacyKeywords, hfound h rfl, hspace, h]
  · simp [legacyKeyword?, legacyKeywords, afterWordAnyCase?_of_word h, hfound h rfl, hspace, h]

theorem takeNamespace_of_word (h : IsLegacyWord word)
    (hrest : ∃ c ∈ rest.head?, isMarkupSpace c = true) : takeNamespace (word ++ rest) = none := by
  obtain ⟨c, hc, hspace⟩ := hrest
  obtain ⟨cs, rfl⟩ : ∃ cs, rest = c :: cs := List.head?_eq_some_iff.1 hc
  have hstops : Stops Char.isAlpha (c :: cs) := .cons (isAlpha_of_isMarkupSpace hspace)
  have hcolon : c ≠ ':' := by
    rintro rfl
    cases hspace
  unfold takeNamespace
  simp only [takeWhile_append_of_all h.isAlpha hstops, hstops.dropWhile_append,
    List.dropWhile_eq_nil_iff.2 h.isAlpha, List.nil_append]
  split <;> simp_all

theorem at?_of_word (h : IsLegacyWord word) : Directive.at? ('<' :: (word ++ rest)) = none := by
  obtain ⟨c, cs, rfl, hc⟩ := h.head
  have hopens (d : Directive) : d.opensAt ('<' :: (c :: cs ++ rest)) = false := by
    have hfirst : afterWordAnyCase? d.opener ('<' :: (c :: cs ++ rest)) = none := by
      simp [Directive.opener, afterWordAnyCase?, hc]
    rw [Directive.opensAt, hfirst]
  simp only [Directive.at?, hopens, Bool.false_eq_true, if_false]

theorem tagAt_of_word (h : IsLegacyWord word) (hrest : ∃ c ∈ rest.head?, isMarkupSpace c = true) :
    tagAt declarations closer ⟨offset, '<' :: (word ++ rest)⟩ (word ++ rest) =
      (legacyTag declarations (String.ofList (word.map Char.toLower)) offset
        ⟨offset + byteLength ['<'], word ++ rest⟩).map some := by
  have hslash : ∀ ds, word ++ rest ≠ '/' :: ds := by
    obtain ⟨c, cs, rfl, hc⟩ := h.head
    rintro ds heq
    cases (List.cons.inj heq).1
    cases hc
  unfold tagAt
  split
  · rename_i hcontra
    exact absurd hcontra (hslash _)
  · simp only [at?_of_word h, takeNamespace_of_word h hrest, legacyKeyword?_of_word h hrest, past]

/-- The tag names a declaration; its name is the one binding. -/
theorem pieceAt_of_word {name : String} {value : BindingValue} {written tail : List Char}
    {d : Declaration} (h : IsLegacyWord word)
    (hwritten : Bindings.WrittenAs [("name", value)] written tail)
    (hspace : ∃ c ∈ written.head?, isMarkupSpace c = true) (hvalue : value.unquoted = some name)
    (hname : name ≠ "") (hd : Dictionary.get? name declarations = some d) :
    pieceAt declarations closer ⟨offset, '<' :: (word ++ written) ++ tail⟩ =
      ((skipSpace ⟨offset + byteLength ('<' :: (word ++ written)), tail⟩).tagEnd d.head
        ⟨word.map Char.toLower, true⟩).map some := by
  obtain ⟨x, hx, hblank⟩ := hspace
  have hhead : x ∈ (written ++ tail).head? := List.mem_head?_append_of_mem_head? hx
  have hstops : Stops Char.isAlpha (written ++ tail) := by
    intro c hc
    cases Option.mem_unique hc hhead
    exact isAlpha_of_isMarkupSpace hblank
  have hempty : name.isEmpty = false := by simpa [String.isEmpty_iff] using hname
  have hlegacy : legacyTag declarations (String.ofList (word.map Char.toLower)) offset
      ⟨offset + byteLength ['<'], word ++ (written ++ tail)⟩ =
        (skipSpace ⟨offset + byteLength ('<' :: (word ++ written)), tail⟩).tagEnd d.head
          ⟨word.map Char.toLower, true⟩ := by
    unfold legacyTag
    simp only [skipWhile_append _ word h.isAlpha hstops, hwritten.bindings, Dictionary.get?,
      if_true, Option.bind_some, hvalue, Option.getD_some, hempty, hd, String.toList_ofList,
      Bool.false_eq_true, if_false]
    simp [Nat.add_assoc]
  rw [List.cons_append, List.append_assoc]
  change tagAt _ _ _ _ = _
  rw [tagAt_of_word h ⟨x, hhead, hblank⟩, hlegacy]

end Cursor

/-! ### Ends of tags -/

/-- How an element without children ends: at once, or with a closing tag. -/
inductive EndsEmpty (closer : Closer) : List Char → Prop
  | atOnce : EndsEmpty closer ['/', '>']
  | closingTag {name blanks : List Char} (hname : closer.Matches name) (hblanks : Spaces blanks) :
    EndsEmpty closer ('>' :: '<' :: '/' :: (name ++ (blanks ++ ['>'])))

namespace NodeTree

variable {declarations : Declarations} {stack : List OpenElement} {nodes : List Node}
variable {head : ElementHead} {closer : Closer} {tag ending : List Char} {offset : Nat}

/-- An opening tag is read up to where it ends. -/
def ReadsTag (declarations : Declarations) (waited : Option Closer) (offset : Nat)
    (tag : List Char) (head : ElementHead) (closer : Closer) : Prop :=
  ∀ tail, AtTagEnd tail → Cursor.pieceAt declarations waited ⟨offset, tag ++ tail⟩ =
    ((Cursor.skipSpace ⟨offset + byteLength tag, tail⟩).tagEnd head closer).map some

theorem ReadsTag.pieceAt_atOnce {waited : Option Closer}
    (h : ReadsTag declarations waited offset tag head closer) (rest : List Char) :
    Cursor.pieceAt declarations waited ⟨offset, tag ++ '/' :: '>' :: rest⟩ =
      .ok (some (.empty head ⟨offset + byteLength (tag ++ ['/', '>']), rest⟩)) := by
  have hslash : Cursor.skipSpace ⟨offset + byteLength tag, '/' :: '>' :: rest⟩ =
      ⟨offset + byteLength tag, '/' :: '>' :: rest⟩ := Cursor.skipSpace_of_stops (.cons rfl)
  rw [h _ ⟨'/', _, rfl, .inr rfl⟩, hslash]
  simp [Cursor.tagEnd, hslash, Cursor.expect, Cursor.past, Except.map, Nat.add_assoc]

theorem ReadsTag.pieceAt_opened {waited : Option Closer}
    (h : ReadsTag declarations waited offset tag head closer) (rest : List Char) :
    Cursor.pieceAt declarations waited ⟨offset, tag ++ '>' :: rest⟩ =
      .ok (some (.opening head closer ⟨offset + byteLength (tag ++ ['>']), rest⟩)) := by
  have hangle : Cursor.skipSpace ⟨offset + byteLength tag, '>' :: rest⟩ =
      ⟨offset + byteLength tag, '>' :: rest⟩ := Cursor.skipSpace_of_stops (.cons rfl)
  rw [h _ ⟨'>', _, rfl, .inl rfl⟩, hangle]
  simp [Cursor.tagEnd, hangle, Cursor.expect, Cursor.past, Except.map, Nat.add_assoc]

theorem ReadsTag.startsPiece {waited : Option Closer}
    (h : ReadsTag declarations waited offset tag head closer) (hending : EndsEmpty closer ending)
    (rest : List Char) : StartsPiece declarations waited ⟨offset, tag ++ (ending ++ rest)⟩ := by
  cases hending with
  | atOnce => exact startsPiece_of_pieceAt (h.pieceAt_atOnce rest)
  | closingTag hname hblanks => exact startsPiece_of_pieceAt (h.pieceAt_opened _)

/-- A tag and its end are read as an element without children. -/
theorem ReadsTag.readAll_eq (h : ReadsTag declarations (awaited stack) offset tag head closer)
    (hending : EndsEmpty closer ending) (rest : List Char) :
    readAll declarations stack nodes ⟨offset, tag ++ (ending ++ rest)⟩ =
      readAll declarations stack (.element head []
        (Span.ofBounds offset (offset + byteLength (tag ++ ending))) :: nodes)
        ⟨offset + byteLength (tag ++ ending), rest⟩ := by
  cases hending with
  | atOnce => exact readAll_of_pieceAt (h.pieceAt_atOnce rest)
  | @closingTag name blanks hname hblanks =>
    let closing := '<' :: '/' :: (name ++ (blanks ++ ['>']))
    have hclose : Cursor.pieceAt declarations (awaited (⟨head, closer, offset, nodes⟩ :: stack))
        ⟨offset + byteLength (tag ++ ['>']), closing ++ rest⟩ = .ok (some (.closing
          ⟨offset + byteLength (tag ++ ['>']) + byteLength closing, rest⟩)) :=
      hname.pieceAt_closingTag hblanks _ rest
    have hlength : offset + byteLength (tag ++ ['>']) + byteLength closing =
        offset + byteLength (tag ++ '>' :: closing) := by
      simp [Nat.add_assoc]
    have hopened : readAll declarations stack nodes ⟨offset, tag ++ ('>' :: closing ++ rest)⟩ =
        readAll declarations (⟨head, closer, offset, nodes⟩ :: stack) []
          ⟨offset + byteLength (tag ++ ['>']), closing ++ rest⟩ :=
      readAll_of_pieceAt (h.pieceAt_opened _)
    rw [hopened, readAll_of_pieceAt hclose, readOn, hlength]
    rfl

end NodeTree

end PageEngine
