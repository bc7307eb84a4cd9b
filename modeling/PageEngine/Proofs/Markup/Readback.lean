import Mathlib.Data.List.Infix
import PageEngine.Proofs.Dictionary
import PageEngine.Proofs.Markup.Canonical
import PageEngine.Proofs.Markup.Lookahead

/-! The readers read back what is printed. For each printed part there is one lemma: the reader of
that part, at a place where the part stands before some other text, finds just that part and stops
where the other text begins. -/

namespace PageEngine

open Text (byteLength byteLength_cons byteLength_append isMarkupSpace)

namespace Cursor

variable {p : Char → Bool} {offset : Nat} {cs tail more : List Char}

theorem takeWhile_append_of_all (hall : ∀ c ∈ cs, p c = true) (htail : Stops p tail) :
    (cs ++ tail).takeWhile p = cs := by
  rw [htail.takeWhile_append, List.takeWhile_eq_self_iff.2 hall]

theorem skipWhile_append (offset : Nat) (cs : List Char) (hall : ∀ c ∈ cs, p c = true)
    (htail : Stops p tail) : skipWhile p ⟨offset, cs ++ tail⟩ = ⟨offset + byteLength cs, tail⟩ := by
  have hdrop : (cs ++ tail).dropWhile p = tail := by
    rw [htail.dropWhile_append, List.dropWhile_eq_nil_iff.2 hall, List.nil_append]
  simp only [skipWhile, past, takeWhile_append_of_all hall htail, hdrop]

theorem skipSpace_of_stops (htail : Stops isMarkupSpace tail) :
    skipSpace ⟨offset, tail⟩ = ⟨offset, tail⟩ :=
  skipWhile_append offset [] (fun _ hc => nomatch hc) htail

/-! ### Bindings -/

theorem takeQuoted_append {quote : Char} {body : List Char} (hquote : quote ≠ '\\')
    (h : Unquoted quote body) : takeQuoted quote (body ++ quote :: more) = some (body, more) := by
  fun_induction Unquoted quote body with
  | case1 => simp [takeQuoted, hquote]
  | case2 c rest ih => simp [takeQuoted, ih h]
  | case3 c rest _ ih =>
    obtain ⟨hslash, hne, hrest⟩ := h
    simp [takeQuoted, hslash, hne, ih hrest]

theorem not_isMarkupSpace_of_isBareChar {c : Char} (h : isBareChar c = true) :
    isMarkupSpace c = false := by
  simp only [isBareChar, Bool.not_eq_true', Bool.or_eq_false_iff] at h
  exact h.1.1

theorem not_isMarkupSpace_of_isQuote {c : Char} (h : isQuote c = true) :
    isMarkupSpace c = false := by
  simp only [isQuote, Bool.or_eq_true, beq_iff_eq] at h
  obtain rfl | rfl := h <;> rfl

theorem bindingValue_quoted {text : String} (h : (BindingValue.quoted text).Printable) :
    bindingValue ⟨offset, text.toList ++ more⟩ =
      .ok (.quoted text, ⟨offset + byteLength text.toList, more⟩) := by
  obtain ⟨quote, body, hquote, hbody, htext⟩ := h
  have hne : quote ≠ '\\' := by
    rintro rfl
    cases hquote
  have htaken : takeQuoted quote (body ++ [quote] ++ more) = some (body, more) := by
    simpa using takeQuoted_append hne hbody
  rw [htext, List.cons_append]
  simp only [bindingValue, hquote, htaken, if_true, past, ← htext, String.ofList_toList]

theorem bindingValue_bare {text : String} (h : (BindingValue.bare text).Printable)
    (hmore : Stops isBareChar more) :
    bindingValue ⟨offset, text.toList ++ more⟩ =
      .ok (.bare text, ⟨offset + byteLength text.toList, more⟩) := by
  obtain ⟨hne, hstart, hbare⟩ := h
  have htake := takeWhile_append_of_all hbare hmore
  have hskip := skipWhile_append offset text.toList hbare hmore
  have hempty : text.toList.isEmpty = false := by simpa using hne
  unfold bindingValue
  split
  · rename_i hnil
    exact absurd (List.append_eq_nil_iff.1 hnil).1 hne
  · rename_i first rest hfirst
    have hquote : isQuote first = false := by
      refine hstart first ?_
      cases htext : text.toList with
      | nil => exact absurd htext hne
      | cons c cs =>
        rw [htext] at hfirst
        rw [(List.cons.inj hfirst).1]
        rfl
    simp only [hquote, htake, hskip, hempty, Bool.false_eq_true, if_false, String.ofList_toList]

/-- What may follow a binding: a character that ends a bare value, and after blanks no value. -/
structure EndsBinding (more : List Char) : Prop where
  stops : Stops isBareChar more
  noValue : ∀ rest, more.dropWhile isMarkupSpace ≠ '=' :: rest

theorem isBareChar_of_isKeyChar {c : Char} (h : isKeyChar c = true) : isBareChar c = true := by
  simp only [isKeyChar, isBareChar, Bool.not_eq_true', Bool.or_eq_false_iff] at h ⊢
  exact ⟨⟨h.1.1.1, h.1.2⟩, h.2⟩

theorem EndsBinding.key_stops (h : EndsBinding more) : Stops isKeyChar more := by
  intro c hc
  cases hkey : isKeyChar c with
  | false => rfl
  | true => cases (isBareChar_of_isKeyChar hkey).symm.trans (h.stops c hc)

theorem skipSpace_skipSpace (c : Cursor) : c.skipSpace.skipSpace = c.skipSpace := by
  refine skipSpace_of_stops fun x hx => ?_
  have hnot := List.head?_dropWhile_not isMarkupSpace c.rest
  rw [show (c.rest.dropWhile isMarkupSpace).head? = some x from hx] at hnot
  simpa using hnot

theorem binding_valued {key : String} {text : List Char} {value : BindingValue}
    (hne : key.toList ≠ []) (hkey : ∀ c ∈ key.toList, isKeyChar c = true)
    (hstart : Stops isMarkupSpace (text ++ more))
    (hvalue : ∀ start, bindingValue ⟨start, text ++ more⟩ =
      .ok (value, ⟨start + byteLength text, more⟩)) :
    binding ⟨offset, key.toList ++ '=' :: (text ++ more)⟩ =
      .ok ((key, value), ⟨offset + byteLength (key.toList ++ '=' :: text), more⟩) := by
  have hempty : key.toList.isEmpty = false := by simpa using hne
  have hequals : Stops isKeyChar ('=' :: (text ++ more)) := .cons rfl
  have hnext : skipSpace ⟨offset + byteLength key.toList, '=' :: (text ++ more)⟩ =
      ⟨offset + byteLength key.toList, '=' :: (text ++ more)⟩ := skipSpace_of_stops (.cons rfl)
  unfold binding
  simp only [takeWhile_append_of_all hkey hequals, hempty, hnext, past, skipSpace_of_stops hstart,
    skipWhile_append offset key.toList hkey hequals, hvalue, Except.map, Bool.false_eq_true,
    if_false, String.ofList_toList, byteLength_append, byteLength_cons, Text.byteLength_nil,
    Nat.add_zero, Nat.add_assoc]

theorem binding_present {key : String} (hne : key.toList ≠ [])
    (hkey : ∀ c ∈ key.toList, isKeyChar c = true) (hmore : EndsBinding more) :
    binding ⟨offset, key.toList ++ more⟩ =
      .ok ((key, .present), skipSpace ⟨offset + byteLength key.toList, more⟩) := by
  have hempty : key.toList.isEmpty = false := by simpa using hne
  unfold binding
  simp only [takeWhile_append_of_all hkey hmore.key_stops, hempty, Bool.false_eq_true, if_false,
    skipWhile_append offset key.toList hkey hmore.key_stops]
  split
  · rename_i rest hrest
    exact absurd hrest (hmore.noValue rest)
  · rw [String.ofList_toList]

theorem stops_isMarkupSpace_append {c : Char} (hhead : c ∈ cs.head?)
    (hc : isMarkupSpace c = false) : Stops isMarkupSpace (cs ++ more) := by
  cases cs with
  | nil => cases hhead
  | cons x xs =>
    cases hhead
    exact .cons hc

/-- After a key that stands alone the blanks before the next binding are read, too. -/
theorem binding_print (offset : Nat) {key : String} {value : BindingValue}
    (h : Bindings.PrintableEntry (key, value)) (hmore : EndsBinding more) :
    ∃ d, binding ⟨offset, key.toList ++ (value.print ++ more)⟩ = .ok ((key, value), d) ∧
      d.skipSpace = skipSpace ⟨offset + byteLength (key.toList ++ value.print), more⟩ := by
  cases value with
  | quoted text =>
    obtain ⟨quote, body, hquote, -, htext⟩ := h.value
    have hstart : Stops isMarkupSpace (text.toList ++ more) :=
      stops_isMarkupSpace_append (by rw [htext]; rfl) (not_isMarkupSpace_of_isQuote hquote)
    exact ⟨_, binding_valued h.key_ne_nil h.key hstart fun _ => bindingValue_quoted h.value, rfl⟩
  | bare text =>
    obtain ⟨hne, -, hbare⟩ := h.value
    have hstart : Stops isMarkupSpace (text.toList ++ more) :=
      stops_isMarkupSpace_append (List.head?_eq_some_head hne)
        (not_isMarkupSpace_of_isBareChar (hbare _ (List.head_mem hne)))
    exact ⟨_, binding_valued h.key_ne_nil h.key hstart fun _ =>
      bindingValue_bare h.value hmore.stops, rfl⟩
  | present =>
    refine ⟨_, binding_present h.key_ne_nil h.key hmore, ?_⟩
    rw [skipSpace_skipSpace, BindingValue.print, List.append_nil, List.nil_append]

/-- A binding that is read is stored among those already found. -/
theorem bindings_of_binding {found : Bindings} {c d : Cursor} {key : String} {value : BindingValue}
    (h : c.skipSpace.binding = .ok ((key, value), d)) :
    bindings found c = bindings (Dictionary.insert key value found) d := by
  rw [bindings]
  split
  · rename_i hrest
    simp [binding, hrest] at h
  · rename_i hrest
    simp [binding, hrest, isKeyChar] at h
  · rename_i hrest
    simp [binding, hrest, isKeyChar] at h
  · split
    · rename_i hbinding
      rw [h] at hbinding
      cases hbinding
    · rename_i hbinding
      rw [h] at hbinding
      cases hbinding
      rfl

theorem bindings_congr {found : Bindings} {c d : Cursor} (h : c.skipSpace = d.skipSpace) :
    bindings found c = bindings found d := by
  rw [bindings, bindings]
  revert h
  generalize c.skipSpace = next
  rintro rfl
  rfl

/-- What may follow the bindings of a tag. -/
structure EndsTag (tail : List Char) : Prop where
  stops : Stops isBareChar tail
  tagEnd : ∃ c rest, tail.dropWhile isMarkupSpace = c :: rest ∧ (c = '>' ∨ c = '/')

theorem EndsTag.endsBinding (h : EndsTag tail) : EndsBinding tail := by
  refine ⟨h.stops, fun rest hrest => ?_⟩
  obtain ⟨c, others, hdrop, rfl | rfl⟩ := h.tagEnd <;> simp [hdrop] at hrest

theorem stops_key {key : String} {value : BindingValue}
    (h : Bindings.PrintableEntry (key, value)) : Stops isMarkupSpace (key.toList ++ more) :=
  stops_isMarkupSpace_append (List.head?_eq_some_head h.key_ne_nil)
    (not_isMarkupSpace_of_isBareChar (isBareChar_of_isKeyChar (h.key _ (List.head_mem _))))

theorem endsBinding_print {bs : Bindings} (h : ∀ entry ∈ bs, Bindings.PrintableEntry entry)
    (htail : EndsTag tail) : EndsBinding (bs.print ++ tail) := by
  cases bs with
  | nil => exact htail.endsBinding
  | cons entry rest =>
    obtain ⟨key, value⟩ := entry
    have hfirst := h (key, value) List.mem_cons_self
    have hblank : ∀ c ∈ [' '], isMarkupSpace c = true := by simp [isMarkupSpace]
    have hdrop : Bindings.print ((key, value) :: rest) ++ tail =
        [' '] ++ (key.toList ++ (value.print ++ (Bindings.print rest ++ tail))) := by simp
    refine ⟨hdrop ▸ .cons rfl, fun more hmore => ?_⟩
    rw [hdrop, (stops_key hfirst).dropWhile_append, List.dropWhile_eq_nil_iff.2 hblank] at hmore
    have hequals := hfirst.key _ (List.head_mem hfirst.key_ne_nil)
    rw [List.nil_append, List.append_eq_cons_iff] at hmore
    obtain ⟨hnil, -⟩ | ⟨others, hkey, -⟩ := hmore
    · exact hfirst.key_ne_nil hnil
    · simp [hkey, isKeyChar] at hequals

/-- At the end of a tag there are no more bindings. -/
theorem bindings_of_tagEnd {found : Bindings} {c : Cursor} {x : Char} {rest : List Char}
    (hnext : c.skipSpace.rest = x :: rest) (hx : x = '>' ∨ x = '/') :
    bindings found c = .ok (found, c.skipSpace) := by
  rw [bindings]
  split
  · rename_i hnil
    cases hnil.symm.trans hnext
  · rfl
  · rfl
  · rename_i hslash hangle
    obtain rfl | rfl := hx
    · exact (hslash rest hnext).elim
    · exact (hangle rest hnext).elim

/-- The bindings of a tag are read back, after those already found. -/
theorem bindings_print (offset : Nat) (found : Bindings) {bs : Bindings}
    (h : ∀ entry ∈ bs, Bindings.PrintableEntry entry)
    (hordered : Dictionary.Ordered (found ++ bs)) (htail : EndsTag tail) :
    bindings found ⟨offset, bs.print ++ tail⟩ =
      .ok (found ++ bs, skipSpace ⟨offset + byteLength bs.print, tail⟩) := by
  induction bs generalizing found offset with
  | nil =>
    obtain ⟨c, rest, hdrop, hc⟩ := htail.tagEnd
    have hnext : (skipSpace ⟨offset, tail⟩).rest = c :: rest := hdrop
    rw [Bindings.print_nil, List.nil_append, bindings_of_tagEnd hnext hc, List.append_nil]
    rfl
  | cons entry rest ih =>
    obtain ⟨key, value⟩ := entry
    have hfirst := h (key, value) List.mem_cons_self
    have hrest := fun entry hentry => h entry (List.mem_cons_of_mem _ hentry)
    obtain ⟨d, hbinding, hd⟩ := binding_print (offset + 1) hfirst
      (endsBinding_print hrest htail)
    have hspace : skipSpace ⟨offset, ' ' :: (key.toList ++
        (value.print ++ (Bindings.print rest ++ tail)))⟩ =
        ⟨offset + 1, key.toList ++ (value.print ++ (Bindings.print rest ++ tail))⟩ :=
      skipWhile_append offset [' '] (by simp [isMarkupSpace]) (stops_key hfirst)
    have hlater : ∀ e ∈ found, e.1 < key := fun e he =>
      (List.pairwise_append.1 hordered).2.2 e he (key, value) List.mem_cons_self
    rw [List.append_cons] at hordered
    calc bindings found ⟨offset, Bindings.print ((key, value) :: rest) ++ tail⟩
        = bindings found ⟨offset, ' ' :: (key.toList ++
            (value.print ++ (Bindings.print rest ++ tail)))⟩ := by simp
      _ = bindings (Dictionary.insert key value found) d :=
          bindings_of_binding (hspace ▸ hbinding)
      _ = bindings (found ++ [(key, value)]) ⟨offset + 1 + byteLength (key.toList ++ value.print),
            Bindings.print rest ++ tail⟩ := by
          rw [Dictionary.insert_of_forall_lt hlater, bindings_congr hd]
      _ = .ok (found ++ (key, value) :: rest, skipSpace
            ⟨offset + byteLength (Bindings.print ((key, value) :: rest)), tail⟩) := by
          have hblank : Char.utf8Size ' ' = 1 := rfl
          rw [ih _ _ hrest hordered, ← List.append_cons]
          simp [hblank, Nat.add_assoc]

/-! ### Opening tags -/

theorem takeNamespace_of_letters {letters rest : List Char} (hne : letters ≠ [])
    (h : ∀ c ∈ letters, c.isAlpha = true) :
    takeNamespace (letters ++ ':' :: rest) = some (letters, rest) := by
  have hcolon : Stops Char.isAlpha (':' :: rest) := .cons rfl
  have hdrop : (letters ++ ':' :: rest).dropWhile Char.isAlpha = ':' :: rest := by
    rw [hcolon.dropWhile_append, List.dropWhile_eq_nil_iff.2 h, List.nil_append]
  unfold takeNamespace
  simp only [takeWhile_append_of_all h hcolon, hdrop]

/-- The characters of the words that tags begin with. -/
def isWordChar (c : Char) : Bool :=
  isIdentifierChar c || c == ':'

theorem isIdentifierChar_of_isAlpha {c : Char} (h : c.isAlpha = true) :
    isIdentifierChar c = true := by
  simp [isIdentifierChar, Char.isAlphanum, h]

theorem isWordChar_of_toLower {c : Char} (h : isWordChar c.toLower = true) :
    isWordChar c = true := by
  cases hupper : c.isUpper with
  | true =>
    have halpha : c.isAlpha = true := Bool.or_eq_true_iff.2 (.inl hupper)
    simp [isWordChar, isIdentifierChar_of_isAlpha halpha]
  | false => rwa [Text.toLower_of_not_isUpper hupper] at h

theorem not_isWordChar_of_not_isBareChar {c : Char} (h : isBareChar c = false) :
    isWordChar c = false := by
  simp only [isBareChar, isMarkupSpace, Bool.not_eq_false', Bool.or_eq_true, beq_iff_eq] at h
  obtain (((((rfl | rfl) | rfl) | rfl) | rfl) | rfl) | rfl := h <;> rfl

theorem not_isMarkupSpace_of_isWordChar {c : Char} (h : isWordChar c = true) :
    isMarkupSpace c = false := by
  refine not_isMarkupSpace_of_isBareChar ?_
  by_contra hbare
  rw [not_isWordChar_of_not_isBareChar (by simpa using hbare)] at h
  cases h

variable {declarations : Declarations} {closer : Option Closer} {rest : List Char}

theorem tagAt_of_directive {d : Directive} (hslash : ∀ ds, rest ≠ '/' :: ds)
    (hdirective : Directive.at? ('<' :: rest) = some d) :
    tagAt declarations closer ⟨offset, '<' :: rest⟩ rest =
      (d.read ⟨offset, '<' :: rest⟩).map fun (node, after) => some (.leaf node after) := by
  unfold tagAt
  split
  · exact absurd rfl (hslash _)
  · simp only [hdirective]

theorem tagAt_of_namespace {space after : List Char} (hslash : ∀ ds, rest ≠ '/' :: ds)
    (hdirective : Directive.at? ('<' :: rest) = none)
    (hspace : takeNamespace rest = some (space, after))
    (hafter : ∃ x ∈ after.head?, x.isAlphanum = true) :
    tagAt declarations closer ⟨offset, '<' :: rest⟩ rest =
      (inlineTag space ⟨offset + byteLength ['<'] + byteLength (space ++ [':']), after⟩).map
        some := by
  cases after with
  | nil =>
    obtain ⟨x, hx, -⟩ := hafter
    cases hx
  | cons y ys =>
    obtain ⟨x, hx, halphanum⟩ := hafter
    obtain rfl : y = x := Option.some.inj hx
    have hword : isWordChar y = true := by simp [isWordChar, isIdentifierChar, halphanum]
    unfold tagAt
    split
    · exact absurd rfl (hslash _)
    · simp only [hdirective, hspace, not_isMarkupSpace_of_isWordChar hword, halphanum, past,
        if_true, Bool.false_eq_true, if_false]

end Cursor

/-- A text before a tail is read as these bindings. -/
structure Bindings.WrittenAs (bindings : Bindings) (written tail : List Char) : Prop where
  stops : Stops Cursor.isBareChar (written ++ tail)
  bindings : ∀ offset, Cursor.bindings [] ⟨offset, written ++ tail⟩ =
    .ok (bindings, Cursor.skipSpace ⟨offset + byteLength written, tail⟩)

theorem Bindings.Printable.writtenAs_print {bindings : Bindings} (h : bindings.Printable)
    {tail : List Char} (htail : Cursor.EndsTag tail) : bindings.WrittenAs bindings.print tail where
  stops := (Cursor.endsBinding_print h.entry htail).stops
  bindings := fun offset => Cursor.bindings_print offset [] h.entry h.ordered htail

/-! ### Closing tags -/

theorem afterWord?_append (word rest : List Char) : afterWord? word (word ++ rest) = some rest := by
  induction word with
  | nil => rfl
  | cons w ws ih => simp [afterWord?, ih]

theorem afterWordAnyCase?_of_map_toLower {word found after : List Char}
    (h : found.map Char.toLower = word.map Char.toLower) :
    afterWordAnyCase? word (found ++ after) = some after := by
  induction word generalizing found with
  | nil =>
    rw [List.map_eq_nil_iff.1 h]
    rfl
  | cons w ws ih =>
    obtain ⟨x, xs, rfl, hx, hxs⟩ := List.map_eq_cons_iff.1 h
    rw [List.cons_append, afterWordAnyCase?, if_pos hx.symm]
    exact ih hxs

namespace Closer.Matches

variable {closer : Closer} {name rest : List Char}

/-- The name of a closing tag is found in the letter case it is written in. -/
theorem closes? (h : closer.Matches name) (hrest : Directive.endsCloser rest = true) :
    closer.closes? (name ++ rest) = some rest := by
  unfold Closer.closes?
  rw [Closer.Matches] at h
  split at h
  · rename_i hcase
    simp [hcase, afterWordAnyCase?_of_map_toLower h, hrest]
  · rename_i hcase
    simp [hcase, h, afterWord?_append, hrest]

/-- A closing tag, with any blanks behind its name, closes the element that waits for it. -/
theorem pieceAt_closingTag {declarations : Declarations} {blanks : List Char}
    (h : closer.Matches name) (hblanks : Spaces blanks) (offset : Nat) (rest : List Char) :
    Cursor.pieceAt declarations (some closer)
        ⟨offset, '<' :: '/' :: (name ++ (blanks ++ ['>'])) ++ rest⟩ =
      .ok (some (.closing
        ⟨offset + byteLength ('<' :: '/' :: (name ++ (blanks ++ ['>']))), rest⟩)) := by
  have hends : Directive.endsCloser (blanks ++ '>' :: rest) = true := by
    cases blanks with
    | nil => rfl
    | cons c cs => simp [Directive.endsCloser, hblanks c List.mem_cons_self]
  have htake : (name ++ (blanks ++ '>' :: rest)).take
      ((name ++ (blanks ++ '>' :: rest)).length - (blanks ++ '>' :: rest).length) = name := by simp
  have hspace (start : Nat) : Cursor.skipSpace ⟨start, blanks ++ '>' :: rest⟩ =
      ⟨start + byteLength blanks, '>' :: rest⟩ :=
    Cursor.skipWhile_append start _ hblanks (.cons rfl)
  have heq : '<' :: '/' :: (name ++ (blanks ++ ['>'])) ++ rest =
      '<' :: '/' :: (name ++ (blanks ++ '>' :: rest)) := by simp
  rw [heq]
  simp only [Cursor.pieceAt, Cursor.tagAt, Option.bind_some, h.closes? hends, htake, Cursor.past,
    hspace, Cursor.expect, if_true, Except.map]
  simp [Nat.add_assoc]

end Closer.Matches

namespace ElementHead

variable {head : ElementHead}

theorem Printable.isWordChar_of_mem (h : head.Printable) {c : Char} (hc : c ∈ head.word) :
    Cursor.isWordChar c = true := by
  have hidentifier {c : Char} (h : isIdentifierChar c = true) : Cursor.isWordChar c = true := by
    simp [Cursor.isWordChar, h]
  rcases List.mem_append.1 hc with hc | hc
  · exact hidentifier (Cursor.isIdentifierChar_of_isAlpha (h.space c hc))
  · rcases List.mem_cons.1 hc with rfl | hc
    · rfl
    · exact hidentifier (h.typeName c hc)

theorem Printable.takeNamespace_word (h : head.Printable) (rest : List Char) :
    takeNamespace (head.word ++ rest) = some (head.space.toList, head.typeName.toList ++ rest) := by
  have heq : head.word ++ rest = head.space.toList ++ ':' :: (head.typeName.toList ++ rest) := by
    simp [word]
  rw [heq, Cursor.takeNamespace_of_letters h.space_ne_nil h.space]

theorem Printable.isInline_closer (h : head.Printable) : head.closer.IsInline :=
  ⟨rfl, fun rest => by rw [closer, h.takeNamespace_word]; rfl⟩

/-- The word of an inline element is no directive, whatever follows it. -/
theorem Printable.opensAt_word (h : head.Printable) {rest : List Char}
    (hrest : Stops Cursor.isWordChar rest) (d : Directive) :
    d.opensAt ('<' :: (head.word ++ rest)) = false := by
  rw [Bool.eq_false_iff]
  intro hopens
  unfold Directive.opensAt at hopens
  split at hopens
  · rename_i after hafter
    obtain ⟨found, heq, hfound⟩ := exists_of_afterWordAnyCase? hafter
    have hopener : d.opener.map Char.toLower = '<' :: 'p' :: ':' :: d.name.toList := by
      cases d <;> decide
    rw [hopener] at hfound
    obtain ⟨x, letters, rfl, -, hletters⟩ := List.map_eq_cons_iff.1 hfound
    have heq : head.word ++ rest = letters ++ after := (List.cons.inj heq).2
    -- Both words are as long as their characters go on.
    have hword : ∀ c ∈ letters, Cursor.isWordChar c = true := by
      have hname : ('p' :: ':' :: d.name.toList).all Cursor.isWordChar = true := by
        cases d <;> decide
      exact fun c hc => Cursor.isWordChar_of_toLower
        (List.all_eq_true.1 hname _ (hletters ▸ List.mem_map_of_mem hc))
    have hafter : Stops Cursor.isWordChar after := by
      cases after with
      | nil => nofun
      | cons c cs =>
        refine .cons ?_
        simp only [Directive.endsOpener, Bool.or_eq_true, beq_iff_eq] at hopens
        obtain ((((rfl | rfl) | rfl) | rfl) | rfl) | rfl := hopens <;> rfl
    have hsame : head.word = letters := by
      rw [← Cursor.takeWhile_append_of_all (fun _ hc => h.isWordChar_of_mem hc) hrest, heq,
        Cursor.takeWhile_append_of_all hword hafter]
    exact h.noDirective d (hsame ▸ hletters)
  · cases hopens

theorem Printable.inlineTag_of_writtenAs (h : head.Printable) {offset : Nat}
    {written tail : List Char} (hwritten : head.bindings.WrittenAs written tail) :
    Cursor.inlineTag head.space.toList ⟨offset, head.typeName.toList ++ (written ++ tail)⟩ =
      (Cursor.skipSpace ⟨offset + byteLength (head.typeName.toList ++ written), tail⟩).tagEnd head
        head.closer := by
  have hstops : Stops isIdentifierChar (written ++ tail) := by
    intro c hc
    have hword := Cursor.not_isWordChar_of_not_isBareChar (hwritten.stops c hc)
    exact (Bool.or_eq_false_iff.1 hword).1
  have hhead : (⟨String.ofList head.space.toList, String.ofList head.typeName.toList, head.bindings,
      true, String.ofList head.typeName.toList⟩ : ElementHead) = head := by
    simp only [String.ofList_toList, ← h.isInline]
    exact congrArg (ElementHead.mk _ _ _ _) h.declaredName.symm
  unfold Cursor.inlineTag
  simp only [Cursor.takeWhile_append_of_all h.typeName hstops, hwritten.bindings, hhead,
    Cursor.skipWhile_append offset _ h.typeName hstops, byteLength_append, Nat.add_assoc]
  rfl

/-- An opening tag is read up to its end, however its bindings are written. -/
theorem Printable.pieceAt_of_writtenAs (h : head.Printable) {declarations : Declarations}
    {closer : Option Closer} {offset : Nat} {written tail : List Char}
    (hwritten : head.bindings.WrittenAs written tail) :
    Cursor.pieceAt declarations closer ⟨offset, '<' :: (head.word ++ written) ++ tail⟩ =
      ((Cursor.skipSpace ⟨offset + byteLength ('<' :: (head.word ++ written)), tail⟩).tagEnd head
        head.closer).map some := by
  have hrest : Stops Cursor.isWordChar (written ++ tail) := fun c hc =>
    Cursor.not_isWordChar_of_not_isBareChar (hwritten.stops c hc)
  have hspace := h.takeNamespace_word (written ++ tail)
  have hslash : ∀ ds, head.word ++ (written ++ tail) ≠ '/' :: ds := by
    intro ds hcontra
    rw [hcontra] at hspace
    cases hspace
  have hdirective : Directive.at? ('<' :: (head.word ++ (written ++ tail))) = none := by
    simp [Directive.at?, h.opensAt_word hrest]
  have htype : ∃ x ∈ (head.typeName.toList ++ (written ++ tail)).head?, x.isAlphanum = true := by
    obtain ⟨x, hx, halphanum⟩ := h.typeStart
    exact ⟨x, List.mem_head?_append_of_mem_head? hx, halphanum⟩
  have hoffset : offset + byteLength ['<'] + byteLength (head.space.toList ++ [':']) +
      byteLength (head.typeName.toList ++ written) =
        offset + byteLength ('<' :: (head.word ++ written)) := by
    simp [word, Nat.add_assoc]
  calc Cursor.pieceAt declarations closer ⟨offset, '<' :: (head.word ++ written) ++ tail⟩
      = Cursor.pieceAt declarations closer ⟨offset, '<' :: (head.word ++ (written ++ tail))⟩ := by
        simp
    _ = (Cursor.inlineTag head.space.toList
          ⟨offset + byteLength ['<'] + byteLength (head.space.toList ++ [':']),
            head.typeName.toList ++ (written ++ tail)⟩).map some :=
        Cursor.tagAt_of_namespace hslash hdirective hspace htype
    _ = _ := by rw [h.inlineTag_of_writtenAs hwritten, hoffset]

/-- An opening tag is read back up to its end. -/
theorem Printable.pieceAt_tag (h : head.Printable) {declarations : Declarations}
    {closer : Option Closer} {offset : Nat} {tail : List Char} (htail : Cursor.EndsTag tail) :
    Cursor.pieceAt declarations closer ⟨offset, head.tag ++ tail⟩ =
      ((Cursor.skipSpace ⟨offset + byteLength head.tag, tail⟩).tagEnd head head.closer).map
        some :=
  h.pieceAt_of_writtenAs (h.bindings.writtenAs_print htail)

/-! ### Ends of tags -/

variable {declarations : Declarations} {closer : Option Closer} {offset : Nat} {rest : List Char}

theorem Printable.pieceAt_empty (h : head.Printable) :
    Cursor.pieceAt declarations closer ⟨offset, head.tag ++ ' ' :: '/' :: '>' :: rest⟩ =
      .ok (some (.empty head ⟨offset + byteLength (head.tag ++ [' ', '/', '>']), rest⟩)) := by
  have htail : Cursor.EndsTag (' ' :: '/' :: '>' :: rest) :=
    ⟨.cons rfl, '/', '>' :: rest, rfl, .inr rfl⟩
  have hslash (start : Nat) : Cursor.skipSpace ⟨start, '/' :: '>' :: rest⟩ =
      ⟨start, '/' :: '>' :: rest⟩ := Cursor.skipSpace_of_stops (.cons rfl)
  have hspace : Cursor.skipSpace ⟨offset + byteLength head.tag, ' ' :: '/' :: '>' :: rest⟩ =
      ⟨offset + byteLength head.tag + byteLength [' '], '/' :: '>' :: rest⟩ :=
    Cursor.skipWhile_append _ [' '] (by simp [isMarkupSpace]) (.cons rfl)
  rw [h.pieceAt_tag htail, hspace]
  simp [Cursor.tagEnd, hslash, Cursor.expect, Cursor.past, Except.map, Nat.add_assoc]

theorem Printable.pieceAt_opening (h : head.Printable) :
    Cursor.pieceAt declarations closer ⟨offset, head.tag ++ '>' :: rest⟩ =
      .ok (some (.opening head head.closer ⟨offset + byteLength (head.tag ++ ['>']), rest⟩)) := by
  have htail : Cursor.EndsTag ('>' :: rest) := ⟨.cons rfl, '>', rest, rfl, .inl rfl⟩
  have hspace : Cursor.skipSpace ⟨offset + byteLength head.tag, '>' :: rest⟩ =
      ⟨offset + byteLength head.tag, '>' :: rest⟩ := Cursor.skipSpace_of_stops (.cons rfl)
  rw [h.pieceAt_tag htail, hspace]
  simp [Cursor.tagEnd, hspace, Cursor.expect, Cursor.past, Except.map, Nat.add_assoc]

/-- The closing tag closes the element that waits for it. -/
theorem pieceAt_closingTag :
    Cursor.pieceAt declarations (some head.closer) ⟨offset, head.closingTag ++ rest⟩ =
      .ok (some (.closing ⟨offset + byteLength head.closingTag, rest⟩)) := by
  have hmatches : head.closer.Matches head.word := rfl
  have hnone : Spaces [] := fun _ hc => (List.not_mem_nil hc).elim
  exact hmatches.pieceAt_closingTag hnone offset rest

end ElementHead

/-! ### Directives -/

namespace Directive

variable {d : Directive} {content rest : List Char} {offset start : Nat}

theorem toLower_opener (d : Directive) : d.opener.map Char.toLower = d.opener := by
  cases d <;> decide

theorem toLower_closer (d : Directive) : d.closer.map Char.toLower = d.closer := by
  cases d <;> decide

theorem AbsentFrom.of_cons {c : Char} (h : d.AbsentFrom (c :: content)) : d.AbsentFrom content :=
  fun before found after heq => h (c :: before) found after (congrArg (c :: ·) heq)

theorem AbsentFrom.opensAt (h : d.AbsentFrom content) : d.opensAt content = false := by
  unfold Directive.opensAt
  split
  · rename_i after hafter
    obtain ⟨found, rfl, hfound⟩ := exists_of_afterWordAnyCase? hafter
    exact (h [] found after rfl).1 (hfound.trans d.toLower_opener)
  · rfl

theorem AbsentFrom.closes? (h : d.AbsentFrom content) : d.closes? content = none := by
  unfold Directive.closes?
  cases hafter : afterWordAnyCase? d.closer content with
  | none => rfl
  | some after =>
    obtain ⟨found, rfl, hfound⟩ := exists_of_afterWordAnyCase? hafter
    rw [Option.filter_some, (h [] found after rfl).2 (hfound.trans d.toLower_closer)]
    rfl

/-- Whether a directive is absent from a text can be tried at each of its characters. -/
theorem absentFrom_iff : d.AbsentFrom content ↔
    ∀ cs ∈ content.tails, d.opensAt cs = false ∧ d.closes? cs = none := by
  constructor
  · intro h cs hcs
    obtain ⟨before, rfl⟩ := (List.mem_tails cs content).1 hcs
    have hcs : d.AbsentFrom cs := fun first found after heq =>
      h (before ++ first) found after (by rw [heq, List.append_assoc])
    exact ⟨hcs.opensAt, hcs.closes?⟩
  · intro h before found after heq
    obtain ⟨hopens, hcloses⟩ := h (found ++ after) ((List.mem_tails _ _).2 ⟨before, heq.symm⟩)
    refine ⟨fun hfound => ?_, fun hfound => ?_⟩
    · rw [← d.toLower_opener] at hfound
      rwa [Directive.opensAt, afterWordAnyCase?_of_map_toLower hfound] at hopens
    · rw [← d.toLower_closer] at hfound
      rw [Directive.closes?, afterWordAnyCase?_of_map_toLower hfound, Option.filter_some] at hcloses
      simpa using hcloses

instance : Decidable (d.AbsentFrom content) :=
  decidable_of_iff _ absentFrom_iff.symm

theorem content_of_closes? {c stop : Cursor} {after : List Char}
    (hclose : d.closes? c.rest = some after)
    (hstop : (c.past (c.rest.take d.closer.length) after).skipSpace.expect '>' = .ok stop) :
    d.content start 0 c = .ok ([], stop) := by
  rw [content]
  split
  · have := length_lt_of_closes? hclose
    simp_all
  · split
    · rename_i hafter
      cases hclose.symm.trans hafter
      simp only [hstop]
    · rename_i hnone
      cases hclose.symm.trans hnone

theorem content_of_cons {x : Char} {xs : List Char} {depth : Nat}
    (hclose : d.closes? (x :: xs) = none) (hopen : d.opensAt (x :: xs) = false) :
    d.content start depth ⟨offset, x :: xs⟩ =
      (d.content start depth ⟨offset + x.utf8Size, xs⟩).map fun (text, stop) =>
        (x :: text, stop) := by
  rw [content]
  split
  · rename_i hnil
    cases hnil
  · rename_i hcons
    cases hcons
    split
    · rename_i hafter
      cases hclose.symm.trans hafter
    · simp [hopen, Cursor.past]

/-- The content that begins with a text that was passed over. -/
def passing (taken : List Char) (result : Except Fault (List Char × Cursor)) :
    Except Fault (List Char × Cursor) :=
  result.map fun (text, stop) => (taken ++ text, stop)

theorem passing_ok (taken text : List Char) (stop : Cursor) :
    passing taken (.ok (text, stop)) = .ok (taken ++ text, stop) := rfl

theorem passing_passing (taken more : List Char) (result : Except Fault (List Char × Cursor)) :
    passing taken (passing more result) = passing (taken ++ more) result := by
  cases result with
  | error => rfl
  | ok found => simp [passing, Except.map]

/-- A text without a tag of the directive is passed over, if what follows cannot complete one. -/
theorem content_of_absent {depth : Nat} (h : d.AbsentFrom content)
    (hdecided : ∀ s, s <:+ content → s ≠ [] → Decided s rest) :
    d.content start depth ⟨offset, content ++ rest⟩ =
      passing content (d.content start depth ⟨offset + byteLength content, rest⟩) := by
  induction content generalizing offset with
  | nil =>
    rw [List.nil_append, Text.byteLength_nil, Nat.add_zero]
    cases d.content start depth ⟨offset, rest⟩ <;> rfl
  | cons c cs ih =>
    have hall := hdecided (c :: cs) (List.suffix_refl _) (List.cons_ne_nil c cs)
    have hclose : d.closes? (c :: cs ++ rest) = none := by
      rw [closes?_append hall (List.cons_ne_nil c cs), h.closes?]
      rfl
    have hopen : d.opensAt (c :: cs ++ rest) = false := by
      rw [opensAt_append hall (List.cons_ne_nil c cs), h.opensAt]
    have hlater : ∀ s, s <:+ cs → s ≠ [] → Decided s rest := fun s hs =>
      hdecided s (hs.trans ⟨[c], rfl⟩)
    rw [List.cons_append] at hclose hopen ⊢
    rw [content_of_cons hclose hopen, ih h.of_cons hlater, byteLength_cons, ← Nat.add_assoc]
    exact passing_passing [c] cs _

theorem closes?_closer : d.closes? (d.closer ++ '>' :: rest) = some ('>' :: rest) := by
  cases d <;> rfl

/-- Content without a tag of the directive is read back up to the closing tag. -/
theorem content_print (h : d.AbsentFrom content) :
    d.content start 0 ⟨offset, content ++ (d.closer ++ '>' :: rest)⟩ =
      .ok (content, ⟨offset + byteLength (content ++ (d.closer ++ ['>'])), rest⟩) := by
  have htail : Breaks (d.closer ++ '>' :: rest) := fun x hx => (Option.some.inj hx).symm
  have hspace (start : Nat) : Cursor.skipSpace ⟨start, '>' :: rest⟩ = ⟨start, '>' :: rest⟩ :=
    Cursor.skipSpace_of_stops (.cons rfl)
  have hclosed (offset : Nat) : d.content start 0 ⟨offset, d.closer ++ '>' :: rest⟩ =
      .ok ([], ⟨offset + byteLength (d.closer ++ ['>']), rest⟩) :=
    content_of_closes? closes?_closer
      (by simp [Cursor.past, hspace, Cursor.expect, Nat.add_assoc])
  rw [content_of_absent h fun _ _ _ => .inr htail, hclosed, passing_ok, List.append_nil,
    Nat.add_assoc, ← byteLength_append]

/-- A directive is read back. -/
theorem read_print (offset : Nat) (rest : List Char) (h : d.AbsentFrom content) :
    d.read ⟨offset, d.print content ++ rest⟩ =
      .ok (d.node content (Span.ofBounds offset (offset + byteLength (d.print content))),
        ⟨offset + byteLength (d.print content), rest⟩) := by
  have heq : d.print content ++ rest =
      d.opener ++ '>' :: (content ++ (d.closer ++ '>' :: rest)) := by
    simp [print]
  have htag (cs : List Char) : takeTag (d.opener ++ '>' :: cs) = some (d.opener ++ ['>'], cs) := by
    cases d <;> rfl
  have hselfClosing : isSelfClosing (d.opener ++ ['>']) = false := by cases d <;> rfl
  have hlength : byteLength (d.opener ++ ['>']) + byteLength (content ++ (d.closer ++ ['>'])) =
      byteLength (d.print content) := by
    simp [print, Nat.add_assoc]
  unfold Directive.read
  simp only [heq, htag, hselfClosing, Cursor.past, Bool.false_eq_true, if_false, content_print h,
    Except.map, Nat.add_assoc, hlength]

theorem pieceAt_print {declarations : Declarations} {closer : Option Closer}
    (h : d.AbsentFrom content) :
    Cursor.pieceAt declarations closer ⟨offset, d.print content ++ rest⟩ =
      .ok (some (.leaf
        (d.node content (Span.ofBounds offset (offset + byteLength (d.print content))))
        ⟨offset + byteLength (d.print content), rest⟩)) := by
  obtain ⟨inside, heq, hslash, hat⟩ : ∃ inside, d.print content ++ rest = '<' :: inside ∧
      (∀ ds, inside ≠ '/' :: ds) ∧ at? ('<' :: inside) = some d := by
    cases d <;> exact ⟨_, rfl, by simp, rfl⟩
  have hread := read_print offset rest h
  rw [heq] at hread ⊢
  change Cursor.tagAt _ _ _ _ = _
  rw [Cursor.tagAt_of_directive hslash hat, hread]
  rfl

end Directive

end PageEngine
