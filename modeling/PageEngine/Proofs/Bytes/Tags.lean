import PageEngine.Bytes.Template
import PageEngine.Proofs.Bytes.Directives
import PageEngine.Proofs.Declaration.Block

/-! What stands at a `<`, read by bytes: a closing tag, a directive, an element, or text. Names and
closing tags are those that a reader of characters finds, and so is the step that is made. -/

namespace PageEngine

namespace ByteReader

variable {source : ByteReader} {pos textStart : Nat} {c : Cursor} {cs rest : List Char}
variable {nodes flushed : List Node}

/-! ### Names -/

theorem asciiOnly_isIdentifierChar : Text.AsciiOnly isIdentifierChar := by
  intro x hx
  have hrange := toNat_of_isIdentifierChar hx
  exact decide_eq_true (by omega)

theorem asciiOnly_isAlphanum : Text.AsciiOnly Char.isAlphanum := fun x hx =>
  asciiOnly_isIdentifierChar x (by rw [isIdentifierChar, hx]; rfl)

theorem asciiOnly_isAlpha : Text.AsciiOnly Char.isAlpha := fun x hx =>
  asciiOnly_isAlphanum x (by rw [Char.isAlphanum, hx]; rfl)

theorem length_takeWhile_encode {q : Char → Bool} (hq : Text.AsciiOnly q) (cs : List Char) :
    ((Text.encode cs).takeWhile (Text.byteIs q)).length = Text.byteLength (cs.takeWhile q) ∧
      (Text.encode cs).drop ((Text.encode cs).takeWhile (Text.byteIs q)).length =
        Text.encode (cs.dropWhile q) := by
  have hrun := Text.takeWhile_encode (fun _ _ hb => Text.byteIs_of_mem hq hb) cs
  refine ⟨by rw [hrun, Text.length_encode], ?_⟩
  have hsplit := congrArg Text.encode (List.takeWhile_append_dropWhile (p := q) (l := cs)).symm
  rw [Text.encode_append] at hsplit
  rw [hrun]
  conv_lhs => arg 2; rw [hsplit]
  rw [List.drop_left]

theorem namespacePrefix?_encode (cs : List Char) :
    namespacePrefix? (Text.encode cs) =
      (takeNamespace cs).map fun found => Text.byteLength found.1 + 1 := by
  obtain ⟨hlength, hdrop⟩ := length_takeWhile_encode asciiOnly_isAlpha cs
  unfold namespacePrefix? takeNamespace
  dsimp only
  rw [← List.head?_drop, hdrop, hlength]
  cases hletters : cs.takeWhile Char.isAlpha with
  | nil => rfl
  | cons x letters =>
    have hpos : Text.byteLength (x :: letters) ≠ 0 :=
      Nat.ne_of_gt (Text.byteLength_pos (List.cons_ne_nil x letters))
    cases hrest : cs.dropWhile Char.isAlpha with
    | nil => simp
    | cons y rest =>
      obtain ⟨b, bytes, hbytes⟩ :=
        List.exists_cons_of_ne_nil (String.utf8EncodeChar_ne_nil (c := y))
      have hb : Text.byteIs (· == ':') b = (y == ':') :=
        Text.byteIs_of_mem (.eq (by decide)) (hbytes ▸ List.mem_cons_self ..)
      rw [Text.encode_cons, hbytes, List.cons_append, List.head?_cons, Option.any_some, hb]
      by_cases hy : y = ':'
      · subst hy
        rw [if_pos ⟨hpos, rfl⟩]
        rfl
      · rw [if_neg fun h => hy (eq_of_beq h.2)]
        split
        · rename_i heq
          cases heq
        · rename_i heq _
          exact absurd (List.cons.inj heq).1 hy
        · rfl

/-! ### Text before a tag -/

theorem flushText_eq {text : List Char} (h : c.Stands source pos) (hrest : c.rest = text ++ rest)
    (nodes : List Node) : flushText source pos (pos + Text.byteLength text) nodes =
      pure (NodeTree.addText pos text nodes) := by
  cases text with
  | nil => exact if_neg (Nat.lt_irrefl pos)
  | cons x text =>
    have hpos := Text.byteLength_pos (List.cons_ne_nil x text)
    rw [flushText, if_pos (by omega), h.cutOut_eq hrest, pure_bind]
    rfl

/-! ### Closing tags -/

theorem stands_slash (h : c.Stands source pos) (hrest : c.rest = '<' :: '/' :: cs) :
    advance source 2 pos = pos + 2 ∧ (⟨pos + 2, cs⟩ : Cursor).Stands source (pos + 2) := by
  obtain ⟨-, hnext⟩ := h.advance_one (by decide) hrest
  obtain ⟨-, hinside⟩ := hnext.advance_one (by decide) rfl
  refine ⟨h.advance_eq ?_, ⟨rfl, hinside.split⟩⟩
  rw [hrest, Text.byteLength_cons, Text.byteLength_cons, ← Nat.add_assoc]
  exact Nat.le_add_right ..

theorem closes?_eq (closer : Closer) (cs : List Char) : closer.closes? cs =
    (after? closer.anyCase closer.name cs).filter Directive.endsCloser := rfl

theorem closesElement_eq {closer : Closer} (hplain : IsPlain closer.name)
    (h : c.Stands source pos) (hrest : c.rest = '<' :: '/' :: cs) :
    closesElement source closer pos = pure (closer.closes? cs).isSome := by
  obtain ⟨hadvance, hinside⟩ := stands_slash h hrest
  rw [closesElement, hadvance, wordAt_eq hplain asciiOnly_endsCloser hinside, closes?_eq,
    Option.isSome_filter, directive_endsCloser]

theorem agrees_closingTag {closer : Closer} {after : List Char} (hplain : IsPlain closer.name)
    (h : c.Stands source pos) (hrest : c.rest = '<' :: '/' :: cs)
    (hcloses : closer.closes? cs = some after) :
    Agrees source (fun d stop => d.Stands source stop)
      ((((c.past ['<'] ('/' :: cs)).past ['/'] cs).past
        (cs.take (cs.length - after.length)) after).skipSpace.expect '>')
      (closingTag source closer pos) := by
  have hafter := (Option.filter_eq_some_iff.1 (closes?_eq closer cs ▸ hcloses)).1
  obtain ⟨-, hinside⟩ := stands_slash h hrest
  obtain ⟨hsplit, hlength⟩ := stands_after? (c := ⟨pos + 2, cs⟩) hplain hafter
  dsimp only at hsplit hlength
  have htake : cs.take (cs.length - after.length) = cs.take closer.name.length := by
    conv_lhs => rw [hsplit]
    rw [List.length_append, Nat.add_sub_cancel, List.take_left]
  have hall : c.rest = '<' :: '/' :: cs.take closer.name.length ++ after := by
    rw [hrest]
    exact congrArg (fun cs => '<' :: '/' :: cs) hsplit
  have hbytes : Text.byteLength ('<' :: '/' :: cs.take closer.name.length) =
      2 + Text.byteLength closer.name := by
    rw [Text.byteLength_cons, Text.byteLength_cons, hlength, ← Nat.add_assoc]
    rfl
  have hadvance : advance source (2 + Text.byteLength closer.name) pos =
      pos + (2 + Text.byteLength closer.name) := by
    refine h.advance_eq ?_
    rw [hall, Text.byteLength_append, hbytes]
    exact Nat.le_add_right ..
  have hstands : (((c.past ['<'] ('/' :: cs)).past ['/'] cs).past
      (cs.take closer.name.length) after).Stands source (pos + (2 + Text.byteLength closer.name)) := by
    refine ⟨?_, ?_⟩
    · simp only [Cursor.past, h.offset, hlength]
      rw [← Nat.add_assoc]
      rfl
    · rw [← hbytes]
      exact (h.past hall).split
  rw [htake, closingTag, hadvance]
  exact agrees_expect (by decide) (stands_skipSpace hstands)

theorem agrees_strayClosing (closer : Option Closer) (h : c.Stands source pos)
    (hrest : c.rest = '<' :: '/' :: cs) :
    Agrees source (fun _ _ => True) (Cursor.strayClosing closer c.offset cs)
      (strayClosing source closer pos) := by
  obtain ⟨-, hinside⟩ := stands_slash h hrest
  obtain ⟨hlength, hdrop⟩ := length_takeWhile_encode Text.asciiOnly_isMarkupSpace cs
  have hspaces : ((cs.dropWhile Text.isMarkupSpace).length < cs.length) ↔
      Text.byteLength (cs.takeWhile Text.isMarkupSpace) ≠ 0 := by
    have hsplit := congrArg List.length
      (List.takeWhile_append_dropWhile (p := Text.isMarkupSpace) (l := cs))
    rw [List.length_append] at hsplit
    cases hrun : cs.takeWhile Text.isMarkupSpace with
    | nil =>
      rw [hrun] at hsplit
      simp at hsplit ⊢
      omega
    | cons x run =>
      have hpos := Text.byteLength_pos (List.cons_ne_nil x run)
      rw [hrun, List.length_cons] at hsplit
      constructor
      · intro
        omega
      · intro
        omega
  unfold Cursor.strayClosing strayClosing
  rw [hinside.bytesFrom_eq, pure_bind]
  dsimp only
  rw [hdrop, hlength, namespacePrefix?_encode, namespacePrefix?_encode, Option.isSome_map,
    h.offset]
  simp only [hspaces]
  split
  · exact .error h.isBoundary
  · cases hspace : takeNamespace cs with
    | none => exact .ok trivial
    | some found =>
      obtain ⟨space, rest⟩ := found
      have hcolon := Cursor.eq_append_of_takeNamespace hspace
      have hall : (Text.encode cs).drop (Text.byteLength space + 1) = Text.encode rest := by
        have hsize : Text.byteLength space + 1 = (Text.encode (space ++ [':'])).length := by
          rw [Text.length_encode, Text.byteLength_append]
          rfl
        have hsplit : cs = (space ++ [':']) ++ rest := hcolon.trans (List.append_cons ..)
        rw [hsplit, hsize, Text.encode_append (space ++ [':']), List.drop_left]
      have hname : Text.byteLength space + 1 + Text.byteLength (rest.takeWhile isIdentifierChar) =
          Text.byteLength (space ++ ':' :: rest.takeWhile isIdentifierChar) := by
        rw [Text.byteLength_append, Text.byteLength_cons, Nat.add_assoc]
        rfl
      have hafter : cs = (space ++ ':' :: rest.takeWhile isIdentifierChar) ++
          rest.dropWhile isIdentifierChar := by
        rw [List.append_assoc, List.cons_append, List.takeWhile_append_dropWhile]
        exact hcolon
      have htwo : (⟨2, cs⟩ : Cursor).Stands c.rest 2 := ⟨rfl, ['<', '/'], hrest, rfl⟩
      rw [Option.map_some]
      dsimp only
      rw [hall, (length_takeWhile_encode asciiOnly_isIdentifierChar rest).1, h.byteLength,
        h.cutOut_eq (List.append_nil c.rest).symm, pure_bind, hname, htwo.cutOut_eq hafter,
        pure_bind]
      cases closer with
      | none => exact .error h.isBoundary
      | some closer => exact .error h.isBoundary

/-! ### Opening tags -/

/-- The end of an opening tag, found by both. -/
inductive EndsTag (source : List Char) (head : ElementHead) (closer : Closer) :
    Piece → Bool × Nat → Prop
  | empty {after : Cursor} {stop : Nat} (h : after.Stands source stop) :
    EndsTag source head closer (.empty head after) (true, stop)
  | opening {after : Cursor} {stop : Nat} (h : after.Stands source stop) :
    EndsTag source head closer (.opening head closer after) (false, stop)

theorem agrees_tagEnd (h : c.Stands source pos) (head : ElementHead) (closer : Closer) :
    Agrees source (EndsTag source head closer) (c.tagEnd head closer) (tagEnd source pos) := by
  have hspace := stands_skipSpace h
  have hopening := (agrees_expect isAscii_gt hspace).map (f := Piece.opening head closer)
    (g := fun stop => (false, stop)) (S := EndsTag source head closer) fun _ _ hab => .opening hab
  unfold Cursor.tagEnd tagEnd
  dsimp only
  rw [hspace.isAt_eq (.eq (by decide))]
  cases hrest : c.skipSpace.rest with
  | nil => exact hopening
  | cons x rest =>
    by_cases hx : x = '/'
    · subst hx
      obtain ⟨hadvance, hslash⟩ := hspace.advance_one (by decide) hrest
      rw [List.head?_cons, Option.any_some, if_pos (by rfl), hadvance]
      exact (agrees_expect isAscii_gt hslash).map fun _ _ hab => .empty hab
    · rw [List.head?_cons, Option.any_some, if_neg (by simpa using hx)]
      split
      · rename_i heq
        exact absurd (List.cons.inj heq).1 hx
      · exact hopening

/-- The head of an element was read by both, and the name in its closing tag is plain. -/
def HeadsTo (source : List Char) (found : (ElementHead × Closer) × Cursor)
    (found' : (ElementHead × Closer) × Nat) : Prop :=
  ReadsTo source found found' ∧ IsPlain found.1.2.name

/-- A tag is a head and an end. -/
def tagOf (heading : Except Fault ((ElementHead × Closer) × Cursor)) : Except Fault Piece :=
  heading.bind fun found => found.2.tagEnd found.1.1 found.1.2

theorem isPlain_takeWhile {q : Char → Bool} (hq : Text.AsciiOnly q) (cs : List Char) :
    IsPlain (cs.takeWhile q) := fun x hx => hq x (List.mem_takeWhile_imp hx)

theorem isPlain_inline {space typeName : List Char} (hspace : IsPlain space)
    (htype : IsPlain typeName) : IsPlain (space ++ ':' :: typeName) := by
  intro x hx
  rcases List.mem_append.1 hx with hx | hx
  · exact hspace x hx
  · rcases List.mem_cons.1 hx with rfl | hx
    · decide
    · exact htype x hx

theorem byteIs_isAlpha : ∀ x, ∀ b ∈ String.utf8EncodeChar x,
    Text.byteIs Char.isAlpha b = x.isAlpha := fun _ _ hb => Text.byteIs_of_mem asciiOnly_isAlpha hb

theorem byteIs_isIdentifierChar : ∀ x, ∀ b ∈ String.utf8EncodeChar x,
    Text.byteIs isIdentifierChar b = isIdentifierChar x := fun _ _ hb =>
  Text.byteIs_of_mem asciiOnly_isIdentifierChar hb

/-- A tag with a namespace is read alike, since the type is known to have a first character. -/
theorem agrees_inlineHead {space afterColon : List Char} {x : Char} (h : c.Stands source pos)
    (hrest : c.rest = '<' :: cs) (hspace : takeNamespace cs = some (space, x :: afterColon))
    (hx : x.isAlphanum = true) :
    ∃ heading, Cursor.inlineTag space
        ((c.past ['<'] cs).past (space ++ [':']) (x :: afterColon)) = tagOf heading ∧
      Agrees source (HeadsTo source) heading (inlineHead source pos) := by
  obtain ⟨hletters, hcolon⟩ := Cursor.letters_of_takeNamespace hspace
  obtain ⟨hadvance, hname⟩ := h.advance_one (by decide) hrest
  have hrun := hname.takeRun_eq byteIs_isAlpha
  obtain ⟨hskip, hskipped⟩ := hname.skipWhile_eq byteIs_isAlpha
  obtain ⟨hadvance', htype⟩ := hskipped.advance_one (by decide) (x := ':') hcolon
  generalize hplace : ((c.past ['<'] cs).past (space ++ [':']) (x :: afterColon)) = place
  have hsplit : (c.past ['<'] cs).rest = (space ++ [':']) ++ x :: afterColon :=
    (Cursor.eq_append_of_takeNamespace hspace).trans (List.append_cons ..)
  have hstands : place.Stands source (skipWhile source (Text.byteIs Char.isAlpha) (pos + 1) + 1) := by
    have hpast := hname.past hsplit
    rw [hplace, Text.byteLength_append, ← Nat.add_assoc] at hpast
    rw [hskip, Cursor.rest_past, hletters]
    exact hpast
  have hplaceRest : place.rest = x :: afterColon := by rw [← hplace]; rfl
  have hrun' := hstands.takeRun_eq byteIs_isIdentifierChar
  obtain ⟨-, hskipped'⟩ := hstands.skipWhile_eq byteIs_isIdentifierChar
  have hne : (place.rest.takeWhile isIdentifierChar).isEmpty = false := by
    have hident : isIdentifierChar x = true := by rw [isIdentifierChar, hx]; rfl
    rw [hplaceRest, List.takeWhile_cons, if_pos hident]
    rfl
  refine ⟨((place.skipWhile isIdentifierChar).bindings []).map fun found =>
    ((⟨String.ofList space, String.ofList (place.rest.takeWhile isIdentifierChar), found.1, true,
        String.ofList (place.rest.takeWhile isIdentifierChar)⟩,
      ⟨space ++ ':' :: place.rest.takeWhile isIdentifierChar, false⟩), found.2), ?_, ?_⟩
  · unfold Cursor.inlineTag
    dsimp only
    cases (place.skipWhile isIdentifierChar).bindings [] <;> rfl
  · unfold inlineHead
    rw [hadvance, hrun, pure_bind]
    dsimp only
    rw [hadvance', hrun', pure_bind]
    dsimp only
    rw [hne, if_neg Bool.false_ne_true, Cursor.rest_past, hletters]
    exact (agrees_bindings hskipped' []).map fun a b hab =>
      ⟨⟨by rw [hab.1], hab.2⟩, isPlain_inline (hletters ▸ isPlain_takeWhile asciiOnly_isAlpha cs)
        (isPlain_takeWhile asciiOnly_isIdentifierChar place.rest)⟩

theorem isPlain_of_mem_legacyKeywords {keyword : String} (h : keyword ∈ legacyKeywords) :
    IsPlain keyword.toList := fun x hx => by
  have hlower := (Cursor.isLower_of_mem_legacyKeywords h).2 x hx
  exact asciiOnly_isAlpha x (Bool.or_eq_true_iff.2 (.inr hlower))

theorem legacyKeyword?_eq (h : c.Stands source pos) (hrest : c.rest = '<' :: cs) :
    legacyKeyword? source pos = pure (PageEngine.legacyKeyword? cs) := by
  obtain ⟨hadvance, hname⟩ := h.advance_one (by decide) hrest
  have hword : ∀ keyword ∈ legacyKeywords,
      wordAt source true keyword.toList Text.isMarkupSpace (pos + 1) =
        pure ((afterWordAnyCase? keyword.toList cs).any fun rest =>
          rest.head?.any Text.isMarkupSpace) := fun keyword hkeyword => by
    rw [wordAt_eq (isPlain_of_mem_legacyKeywords hkeyword) Text.asciiOnly_isMarkupSpace hname]
    rfl
  have hfind : PageEngine.legacyKeyword? cs = legacyKeywords.find? fun keyword =>
      (afterWordAnyCase? keyword.toList cs).any fun rest => rest.head?.any Text.isMarkupSpace := by
    unfold PageEngine.legacyKeyword?
    congr 1
    funext keyword
    cases afterWordAnyCase? keyword.toList cs with
    | none => rfl
    | some rest => cases rest <;> rfl
  rw [hfind, ← List.findM?_pure, legacyKeyword?, hadvance]
  simp only [legacyKeywords, List.findM?, hword _ List.mem_cons_self,
    hword _ (List.mem_cons_of_mem _ List.mem_cons_self)]

theorem agrees_legacyHead (declarations : Declarations) {keyword : String}
    (hkeyword : keyword ∈ legacyKeywords) (h : c.Stands source pos) (hrest : c.rest = '<' :: cs) :
    ∃ heading, Cursor.legacyTag declarations keyword c.offset (c.past ['<'] cs) = tagOf heading ∧
      Agrees source (HeadsTo source) heading (legacyHead source declarations keyword pos) := by
  obtain ⟨hadvance, hname⟩ := h.advance_one (by decide) hrest
  generalize c.past ['<'] cs = place at hname
  have hrun := hname.takeRun_eq byteIs_isAlpha
  obtain ⟨-, hskipped⟩ := hname.skipWhile_eq byteIs_isAlpha
  refine ⟨((place.skipWhile Char.isAlpha).bindings []).bind fun found =>
    let name := ((Dictionary.get? "name" found.1).bind BindingValue.unquoted).getD ""
    if name.isEmpty then
      .error ⟨.missingLegacyName (String.ofList (place.rest.takeWhile Char.isAlpha)), c.offset⟩
    else
      (Dictionary.get? name declarations).elim (.error ⟨.undeclaredElement name, c.offset⟩)
        fun d => .ok ((d.head, ⟨keyword.toList, true⟩), found.2), ?_, ?_⟩
  · unfold Cursor.legacyTag tagOf
    dsimp only
    cases (place.skipWhile Char.isAlpha).bindings [] with
    | error fault => rfl
    | ok found =>
      dsimp only [Except.bind]
      split
      · rfl
      · generalize Dictionary.get? _ declarations = declared
        cases declared <;> rfl
  · unfold legacyHead
    rw [hadvance, hrun, pure_bind]
    refine (agrees_bindings hskipped []).bind ?_
    rintro ⟨found, after⟩ ⟨_, stop⟩ ⟨rfl, hafter⟩
    dsimp only
    rw [h.offset]
    split
    · exact .error h.isBoundary
    · generalize Dictionary.get? _ declarations = declared
      cases declared with
      | none => exact .error h.isBoundary
      | some d => exact .ok ⟨⟨rfl, hafter⟩, isPlain_of_mem_legacyKeywords hkeyword⟩

/-! ### Steps -/

/-- A piece and a step are the same thing that stands at a position, after the nodes gathered. -/
inductive Steps (source : List Char) (pos : Nat) (nodes : List Node) : Option Piece → Step → Prop
  | one : Steps source pos nodes none (.text 1)
  | two (h : isAt source (· == '/') (pos + 1) = true) : Steps source pos nodes none (.text 2)
  | closing {after : Cursor} {stop : Nat} (h : after.Stands source stop) :
    Steps source pos nodes (some (.closing after)) (.closed nodes stop)
  | leaf {node : Node} {after : Cursor} {stop : Nat} (h : after.Stands source stop) :
    Steps source pos nodes (some (.leaf node after)) (.child (node :: nodes) stop)
  | empty {head : ElementHead} {after : Cursor} {stop : Nat} (h : after.Stands source stop) :
    Steps source pos nodes (some (.empty head after))
      (.child (.element head [] (Span.ofBounds pos stop) :: nodes) stop)
  | opening {head : ElementHead} {closer : Closer} {after : Cursor} {stop : Nat}
    (h : after.Stands source stop) (hplain : IsPlain closer.name) :
    Steps source pos nodes (some (.opening head closer after)) (.opened nodes head closer stop)

theorem agrees_elementStep {heading : Except Fault ((ElementHead × Closer) × Cursor)}
    {heading' : Checked ((ElementHead × Closer) × Nat)}
    (hflush : flushText source textStart pos nodes = pure flushed)
    (h : Agrees source (HeadsTo source) heading heading') :
    Agrees source (Steps source pos flushed) ((tagOf heading).map some)
      (elementStep source textStart pos nodes heading') := by
  unfold elementStep
  rw [hflush, pure_bind]
  rcases h.cases with ⟨fault, rfl, rfl, hfault⟩ |
    ⟨⟨⟨head, closer⟩, c⟩, ⟨⟨head', closer'⟩, stop⟩, rfl, rfl, ⟨heq, hstands⟩, hplain⟩
  · exact .error hfault
  · cases heq
    rw [pure_bind]
    refine (agrees_tagEnd hstands head closer).bind (f := fun piece => .ok (some piece)) ?_
    intro piece found hend
    cases hend with
    | empty h => exact .ok (.empty h)
    | opening h => exact .ok (.opening h hplain)

variable {declarations : Declarations} {closer : Option Closer}

theorem agrees_closingStep (hcloser : ∀ waited ∈ closer, IsPlain waited.name)
    (hflush : flushText source textStart pos nodes = pure flushed) (h : c.Stands source pos)
    (hrest : c.rest = '<' :: '/' :: cs) :
    Agrees source (Steps source pos flushed) (c.tagAt declarations closer ('/' :: cs))
      (closingStep source textStart pos nodes closer) := by
  have hslash : isAt source (· == '/') (pos + 1) = true := by
    obtain ⟨-, hnext⟩ := h.advance_one (by decide) hrest
    rw [hnext.isAt_eq (.eq (by decide))]
    rfl
  have hstray : Agrees source (Steps source pos flushed)
      ((Cursor.strayClosing closer c.offset cs).map fun _ => none) (strayStep source closer pos) :=
    (agrees_strayClosing closer h hrest).map fun _ _ _ => .two hslash
  rw [Cursor.tagAt_slash]
  cases closer with
  | none => exact hstray
  | some waited =>
    have hplain := hcloser waited rfl
    rw [closingStep, closesElement_eq hplain h hrest, pure_bind, Option.bind_some]
    cases hcloses : waited.closes? cs with
    | none => exact hstray
    | some after =>
      rw [Option.isSome_some, if_pos rfl, hflush, pure_bind]
      exact (agrees_closingTag hplain h hrest hcloses).map fun _ _ hab => .closing hab

/-- Where no closing tag begins there is a directive, an element or text. -/
theorem agrees_openStep (hne : ∀ cs, rest ≠ '/' :: cs)
    (hflush : flushText source textStart pos nodes = pure flushed) (h : c.Stands source pos)
    (hrest : c.rest = '<' :: rest) :
    Agrees source (Steps source pos flushed) (c.tagAt declarations closer rest)
      (openStep source declarations textStart pos nodes) := by
  obtain ⟨-, hname⟩ := h.advance_one (by decide) hrest
  rw [Cursor.tagAt_open hne, openStep, directiveAt?_eq h, pure_bind]
  cases Directive.at? c.rest with
  | some d =>
    dsimp only
    rw [hflush, pure_bind]
    exact (agrees_directive h d).map fun a b hab => hab.1 ▸ .leaf hab.2
  | none =>
    dsimp only
    rw [hname.bytesFrom_eq, pure_bind, Cursor.rest_past, namespacePrefix?_encode]
    cases hspace : takeNamespace rest with
    | none =>
      dsimp only [Option.map_none]
      rw [legacyKeyword?_eq h hrest, pure_bind]
      cases hkeyword : PageEngine.legacyKeyword? rest with
      | none => exact .ok .one
      | some keyword =>
        obtain ⟨heading, htag, hheading⟩ := agrees_legacyHead declarations
          (List.mem_of_find?_eq_some hkeyword) h hrest
        dsimp only
        rw [htag]
        exact agrees_elementStep hflush hheading
    | some found =>
      obtain ⟨space, afterColon⟩ := found
      have hsplit : (c.past ['<'] rest).rest = (space ++ [':']) ++ afterColon :=
        (Cursor.eq_append_of_takeNamespace hspace).trans (List.append_cons ..)
      have hcolon := hname.past hsplit
      rw [Text.byteLength_append] at hcolon
      have hat {q : Char → Bool} (hq : Text.AsciiOnly q) :
          isAt source q (pos + 1 + (Text.byteLength space + 1)) = afterColon.head?.any q :=
        hcolon.isAt_eq hq
      dsimp only [Option.map_some]
      rw [hat Text.asciiOnly_isMarkupSpace, hat asciiOnly_isAlphanum]
      cases afterColon with
      | nil => exact .ok .one
      | cons x afterColon =>
        rw [List.head?_cons, Option.any_some, Option.any_some]
        dsimp only
        split
        · rw [h.offset]
          exact .error h.isBoundary
        · split
          · rename_i hx
            obtain ⟨heading, htag, hheading⟩ := agrees_inlineHead h hrest hspace hx
            rw [htag]
            exact agrees_elementStep hflush hheading
          · exact .ok .one

theorem agrees_step (declarations : Declarations)
    (hcloser : ∀ waited ∈ closer, IsPlain waited.name)
    (hflush : flushText source textStart pos nodes = pure flushed) (h : c.Stands source pos)
    (hrest : c.rest = '<' :: rest) :
    Agrees source (Steps source pos flushed) (c.tagAt declarations closer rest)
      (step source declarations closer textStart pos nodes) := by
  have hslash : startsWith source ['<', '/'] pos = pure (afterWord? ['<', '/'] c.rest).isSome :=
    startsWith_eq (List.all_eq_true.1 (by decide)) h
  rw [step, hslash, pure_bind, hrest]
  cases rest with
  | nil => exact agrees_openStep (fun cs => (List.cons_ne_nil '/' cs).symm) hflush h hrest
  | cons x cs =>
    by_cases hx : '/' = x
    · subst hx
      exact agrees_closingStep hcloser hflush h hrest
    · have hnone : (afterWord? ['<', '/'] ('<' :: x :: cs)).isSome = false := by
        simp [afterWord?, hx]
      rw [hnone, if_neg Bool.false_ne_true]
      exact agrees_openStep (fun _ heq => hx (List.cons.inj heq).1.symm) hflush h hrest

end ByteReader

end PageEngine
