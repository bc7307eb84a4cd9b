import PageEngine.Proofs.Markup.Enclosed

/-! Directives inside of each other. The reader of a directive counts the blocks of its name that
are open, passes over their tags and stops at the closing tag that finds none of them open. In a
text in which the tags are balanced each closing tag closes what was opened last, so such a text
leaves the count as it was, and the closing tag behind it is the one where the reader stops. -/

namespace PageEngine

open Text (byteLength)

namespace Directive

variable {d : Directive} {isEmpty : Bool} {tag text rest : List Char} {start depth offset : Nat}

/-! ### Tags in any letter case -/

/-- What may stand between the name and the end of an opening tag: nothing, or a blank and any text
that does not end the tag. -/
inductive TagBody : List Char → Prop
  | nil : TagBody []
  | text {blank : Char} {text : List Char} (hblank : blank ∈ [' ', '\t', '\n', '\r'])
      (htext : '>' ∉ text) : TagBody (blank :: text)

/-- A tag that opens a block, or an empty one with a slash at its end. -/
inductive OpeningTag (d : Directive) : Bool → List Char → Prop
  | block {word body : List Char} (hword : word.map Char.toLower = d.opener) (hbody : TagBody body)
      (hend : body.getLast? ≠ some '/') : OpeningTag d false (word ++ (body ++ ['>']))
  | empty {word body : List Char} (hword : word.map Char.toLower = d.opener)
      (hbody : TagBody body) : OpeningTag d true (word ++ (body ++ ['/', '>']))

/-- A tag that closes a block; blanks may stand behind the name. -/
inductive ClosingTag (d : Directive) : List Char → Prop
  | intro {word blanks : List Char} (hword : word.map Char.toLower = d.closer)
      (hblanks : ∀ c ∈ blanks, Text.isMarkupSpace c = true) :
      ClosingTag d (word ++ (blanks ++ ['>']))

theorem TagBody.endsOpener {body : List Char} (h : TagBody body) {c : Char}
    (hc : c = '>' ∨ c = '/') (rest : List Char) : endsOpener (body ++ c :: rest) = true := by
  cases h with
  | nil => rcases hc with rfl | rfl <;> rfl
  | text hblank =>
    simp only [List.mem_cons, List.not_mem_nil, or_false] at hblank
    rcases hblank with rfl | rfl | rfl | rfl <;> rfl

theorem TagBody.not_mem {body : List Char} (h : TagBody body) : '>' ∉ body := by
  cases h with
  | nil => exact List.not_mem_nil
  | text hblank htext =>
    refine List.not_mem_cons_of_ne_of_not_mem ?_ htext
    rintro rfl
    revert hblank
    decide

/-- The last letter of the name is no slash. -/
theorem getLast?_of_toLower_opener {word : List Char} (h : word.map Char.toLower = d.opener) :
    word.getLast? ≠ some '/' := by
  intro hlast
  have hlower := congrArg List.getLast? h
  rw [List.getLast?_map, hlast] at hlower
  revert hlower
  cases d <;> decide

/-- Either tag has a name and a rest, which tells by its last character whether the tag is empty. -/
theorem OpeningTag.parts (h : d.OpeningTag isEmpty tag) :
    ∃ word body, tag = word ++ (body ++ ['>']) ∧ word.map Char.toLower = d.opener ∧
      (∀ rest, endsOpener (body ++ '>' :: rest) = true) ∧ '>' ∉ body ∧
      ((word ++ body).getLast? = some '/' ↔ isEmpty = true) := by
  cases h with
  | @block word body hword hbody hend =>
    refine ⟨word, body, rfl, hword, hbody.endsOpener (.inl rfl), hbody.not_mem, ?_⟩
    refine iff_of_false (fun hlast => ?_) Bool.false_ne_true
    rcases List.eq_nil_or_concat body with rfl | ⟨front, c, rfl⟩
    · rw [List.append_nil] at hlast
      exact getLast?_of_toLower_opener hword hlast
    · rw [List.getLast?_append_of_ne_nil _ (by simp)] at hlast
      exact hend hlast
  | @empty word body hword hbody =>
    refine ⟨word, body ++ ['/'], by simp, hword, fun rest => ?_, ?_, ?_⟩
    · rw [List.append_assoc]
      exact hbody.endsOpener (.inr rfl) ('>' :: rest)
    · simp [hbody.not_mem]
    · simp

theorem not_mem_of_toLower_opener {word : List Char} (h : word.map Char.toLower = d.opener) :
    '>' ∉ word := by
  intro hmem
  have hlower : '>' ∈ d.opener := h ▸ List.mem_map_of_mem (f := Char.toLower) hmem
  revert hlower
  cases d <;> decide

theorem takeTag_of_not_mem (h : '>' ∉ text) (rest : List Char) :
    takeTag (text ++ '>' :: rest) = some (text ++ ['>'], rest) := by
  induction text with
  | nil => rfl
  | cons c text ih =>
    obtain ⟨hc, htext⟩ := not_or.1 (List.mem_cons.not.1 h)
    rw [List.cons_append, takeTag, ih htext]
    · rfl
    · exact fun heq => hc heq.symm

/-- What the reader finds at an opening tag. -/
structure OpensHere (d : Directive) (isEmpty : Bool) (tag rest : List Char) : Prop where
  closes : d.closes? (tag ++ rest) = none
  opens : d.opensAt (tag ++ rest) = true
  take : takeTag (tag ++ rest) = some (tag, rest)
  selfClosing : isSelfClosing tag = isEmpty

theorem closes?_of_toLower_opener {word : List Char} (h : word.map Char.toLower = d.opener)
    (rest : List Char) : d.closes? (word ++ rest) = none := by
  obtain ⟨first, more, rfl, hfirst, hmore⟩ := List.map_eq_cons_iff.1 h
  obtain ⟨second, more, rfl, hsecond, -⟩ := List.map_eq_cons_iff.1 hmore
  have hnone : afterWordAnyCase? d.closer (first :: second :: more ++ rest) = none := by
    simp [closer, afterWordAnyCase?, hsecond]
  rw [closes?, hnone]
  rfl

theorem OpeningTag.opensHere (h : d.OpeningTag isEmpty tag) (rest : List Char) :
    d.OpensHere isEmpty tag rest := by
  obtain ⟨word, body, rfl, hword, hends, hbody, hslash⟩ := h.parts
  have heq : word ++ (body ++ ['>']) ++ rest = word ++ (body ++ '>' :: rest) := by simp
  refine ⟨heq ▸ closes?_of_toLower_opener hword _, ?_, ?_, ?_⟩
  · have hafter : afterWordAnyCase? d.opener (word ++ (body ++ '>' :: rest)) =
        some (body ++ '>' :: rest) :=
      afterWordAnyCase?_of_map_toLower (hword.trans d.toLower_opener.symm)
    rw [heq, opensAt, hafter]
    exact hends rest
  · have hnot : '>' ∉ word ++ body := fun hmem =>
      (List.mem_append.1 hmem).elim (not_mem_of_toLower_opener hword) hbody
    rw [heq, ← List.append_assoc, takeTag_of_not_mem hnot, List.append_assoc]
  · rw [isSelfClosing, ← List.append_assoc, List.dropLast_concat, Bool.eq_iff_iff, beq_iff_eq]
    exact hslash

/-- The reader goes on behind an opening tag, with one block more if the tag is not empty. -/
theorem content_openingTag (h : d.OpeningTag isEmpty tag) :
    d.content start depth ⟨offset, tag ++ rest⟩ =
      passing tag (d.content start (if isEmpty then depth else depth + 1)
        ⟨offset + byteLength tag, rest⟩) := by
  obtain ⟨hcloses, hopens, htake, hselfClosing⟩ := h.opensHere rest
  obtain ⟨x, xs, hrest⟩ : ∃ x xs, tag ++ rest = x :: xs :=
    List.exists_cons_of_ne_nil fun hnil => by simp [hnil, takeTag] at htake
  rw [content_eq hrest]
  simp only [hcloses, hopens, htake, hselfClosing, if_true, Cursor.past]
  rfl

/-- What the reader finds at a closing tag. -/
theorem closes?_closingTag {word blanks : List Char} (hword : word.map Char.toLower = d.closer)
    (hblanks : ∀ c ∈ blanks, Text.isMarkupSpace c = true) (rest : List Char) :
    d.closes? (word ++ (blanks ++ '>' :: rest)) = some (blanks ++ '>' :: rest) := by
  have hends : endsCloser (blanks ++ '>' :: rest) = true := by
    cases blanks with
    | nil => rfl
    | cons c blanks =>
      have hc := hblanks c (List.mem_cons_self ..)
      simp [endsCloser, hc]
  rw [closes?, afterWordAnyCase?_of_map_toLower (hword.trans d.toLower_closer.symm),
    Option.filter_some, hends]
  rfl

theorem take_closer {word : List Char} (hword : word.map Char.toLower = d.closer)
    (rest : List Char) : (word ++ rest).take d.closer.length = word := by
  rw [← hword, List.length_map, List.take_left]

/-- Where no block is open, a closing tag ends the content. -/
theorem content_closingTag (h : d.ClosingTag tag) :
    d.content start 0 ⟨offset, tag ++ rest⟩ = .ok ([], ⟨offset + byteLength tag, rest⟩) := by
  obtain @⟨word, blanks, hword, hblanks⟩ := h
  have heq : word ++ (blanks ++ ['>']) ++ rest = word ++ (blanks ++ '>' :: rest) := by simp
  have hspace : Cursor.skipSpace ⟨offset + byteLength word, blanks ++ '>' :: rest⟩ =
      ⟨offset + byteLength word + byteLength blanks, '>' :: rest⟩ :=
    Cursor.skipWhile_append _ blanks hblanks (.cons rfl)
  rw [heq]
  refine content_of_closes? (closes?_closingTag hword hblanks rest) ?_
  simp only [take_closer hword, Cursor.past, hspace]
  simp [Cursor.expect, Cursor.past, Nat.add_assoc]

theorem AbsentFrom.of_toLower_ne (h : ∀ c ∈ text, c.toLower ≠ '<') : d.AbsentFrom text := by
  have hnone {found before after more : List Char} (heq : text = before ++ (found ++ after))
      (hfound : found.map Char.toLower = '<' :: more) : False := by
    obtain ⟨c, _, rfl, hc, -⟩ := List.map_eq_cons_iff.1 hfound
    exact h c (by simp [heq]) hc
  exact fun before found after heq =>
    ⟨fun hfound => (hnone heq hfound).elim, fun hfound => (hnone heq hfound).elim⟩

/-- The end of a closing tag is passed over like any text. -/
theorem content_tagEnd {blanks : List Char} (hblanks : ∀ c ∈ blanks, Text.isMarkupSpace c = true) :
    d.content start depth ⟨offset, blanks ++ '>' :: rest⟩ =
      passing (blanks ++ ['>'])
        (d.content start depth ⟨offset + byteLength (blanks ++ ['>']), rest⟩) := by
  have habsent : d.AbsentFrom (blanks ++ ['>']) := by
    refine .of_toLower_ne fun c hc => ?_
    rcases List.mem_append.1 hc with hblank | hend
    · have hblank := hblanks c hblank
      simp only [Text.isMarkupSpace, Bool.or_eq_true, beq_iff_eq] at hblank
      rcases hblank with (((rfl | rfl) | rfl) | rfl) | rfl <;> decide
    · rw [List.mem_singleton.1 hend]
      decide
  have hdecided : ∀ s, s <:+ blanks ++ ['>'] → s ≠ [] → Decided s rest := by
    rintro s ⟨before, heq⟩ hne
    have hparted : Parted (before ++ s) rest := .inl (by simp [heq])
    exact hparted.of_append.decided hne
  have heq : blanks ++ '>' :: rest = blanks ++ ['>'] ++ rest := by simp
  rw [heq]
  exact content_of_absent habsent hdecided

/-- Where a block is open, a closing tag closes it. -/
theorem content_closingTag_inside (h : d.ClosingTag tag) :
    d.content start (depth + 1) ⟨offset, tag ++ rest⟩ =
      passing tag (d.content start depth ⟨offset + byteLength tag, rest⟩) := by
  obtain @⟨word, blanks, hword, hblanks⟩ := h
  have heq : word ++ (blanks ++ ['>']) ++ rest = word ++ (blanks ++ '>' :: rest) := by simp
  obtain ⟨x, xs, hrest⟩ : ∃ x xs, word ++ (blanks ++ '>' :: rest) = x :: xs :=
    List.exists_cons_of_ne_nil (by simp)
  rw [heq, content_eq hrest]
  simp only [closes?_closingTag hword hblanks rest, take_closer hword, Cursor.past,
    content_tagEnd hblanks]
  rw [Text.byteLength_append word, ← Nat.add_assoc]
  exact passing_passing word (blanks ++ ['>']) _

/-! ### Balanced texts -/

/-- A text in which each closing tag of the directive closes a block. Between blocks and empty tags
stand texts without a tag, which may be empty. -/
inductive Balanced (d : Directive) : List Char → Prop
  | plain {text : List Char} (htext : d.AbsentFrom text) : Balanced d text
  | block {text opening inner closing rest : List Char} (htext : d.AbsentFrom text)
      (hopening : d.OpeningTag false opening) (hinner : Balanced d inner)
      (hclosing : d.ClosingTag closing) (hrest : Balanced d rest) :
      Balanced d (text ++ (opening ++ (inner ++ (closing ++ rest))))
  | empty {text tag rest : List Char} (htext : d.AbsentFrom text) (htag : d.OpeningTag true tag)
      (hrest : Balanced d rest) : Balanced d (text ++ (tag ++ rest))

theorem breaks_of_toLower {word more : List Char} (h : word.map Char.toLower = '<' :: more)
    (rest : List Char) : Breaks (word ++ rest) := by
  obtain ⟨c, _, rfl, hc, -⟩ := List.map_eq_cons_iff.1 h
  rintro x ⟨⟩
  exact Text.eq_of_toLower_eq (by decide) hc

theorem OpeningTag.breaks (h : d.OpeningTag isEmpty tag) (rest : List Char) :
    Breaks (tag ++ rest) := by
  obtain ⟨word, body, rfl, hword, -⟩ := h.parts
  rw [List.append_assoc]
  exact breaks_of_toLower hword _

theorem ClosingTag.breaks (h : d.ClosingTag tag) (rest : List Char) : Breaks (tag ++ rest) := by
  obtain @⟨word, blanks, hword, -⟩ := h
  rw [List.append_assoc]
  exact breaks_of_toLower hword _

/-- Behind a balanced text as many blocks are open as before it. -/
theorem Balanced.content_eq (h : d.Balanced text) (hrest : Breaks rest) :
    d.content start depth ⟨offset, text ++ rest⟩ =
      passing text (d.content start depth ⟨offset + byteLength text, rest⟩) := by
  induction h generalizing depth offset rest with
  | plain htext => exact content_of_absent htext fun _ _ _ => .inr hrest
  | @block text opening inner closing later htext hopening _ hclosing _ ihinner ihlater =>
    have htail : Breaks (opening ++ (inner ++ (closing ++ (later ++ rest)))) := hopening.breaks _
    simp only [List.append_assoc]
    rw [content_of_absent htext fun _ _ _ => .inr htail, content_openingTag hopening,
      if_neg Bool.false_ne_true, ihinner (hclosing.breaks _), content_closingTag_inside hclosing,
      ihlater hrest]
    simp only [passing_passing, Text.byteLength_append, Nat.add_assoc]
  | @empty text tag later htext htag _ ih =>
    have htail : Breaks (tag ++ (later ++ rest)) := htag.breaks _
    simp only [List.append_assoc]
    rw [content_of_absent htext fun _ _ _ => .inr htail, content_openingTag htag, if_pos rfl,
      ih hrest]
    simp only [passing_passing, Text.byteLength_append, Nat.add_assoc]

/-! ### The whole directive -/

/-- No other directive begins with the same tag. -/
theorem OpeningTag.at?_eq (h : d.OpeningTag isEmpty tag) (rest : List Char) :
    at? (tag ++ rest) = some d := by
  obtain ⟨word, body, heq, hword, -⟩ := h.parts
  have honly {other : Directive} (hother : other.opensAt (tag ++ rest) = true) : other = d := by
    unfold opensAt at hother
    split at hother
    · rename_i hafter
      obtain ⟨found, hfound, hlower⟩ := exists_of_afterWordAnyCase? hafter
      have hboth := congrArg (List.map Char.toLower) hfound
      rw [heq, List.append_assoc] at hboth
      simp only [List.map_append, hword, hlower, other.toLower_opener] at hboth
      cases other <;> cases d <;> first | rfl | simp [opener, name] at hboth
    · cases hother
  have hopens := (h.opensHere rest).opens
  unfold at?
  cases d with
  | raw => rw [if_pos hopens]
  | comment =>
    have hraw : raw.opensAt (tag ++ rest) ≠ true := fun hraw => Directive.noConfusion (honly hraw)
    rw [if_neg hraw, if_pos hopens]

theorem OpeningTag.exists_cons (h : d.OpeningTag isEmpty tag) (rest : List Char) :
    ∃ inside, tag ++ rest = '<' :: inside ∧ ∀ ds, inside ≠ '/' :: ds := by
  obtain ⟨word, body, rfl, hword, -⟩ := h.parts
  obtain ⟨first, more, rfl, hfirst, hmore⟩ := List.map_eq_cons_iff.1 hword
  obtain ⟨second, more, rfl, hsecond, -⟩ := List.map_eq_cons_iff.1 hmore
  rw [Text.eq_of_toLower_eq (by decide) hfirst]
  refine ⟨second :: (more ++ (body ++ ['>']) ++ rest), rfl, fun ds heq => ?_⟩
  rw [(List.cons.inj heq).1] at hsecond
  revert hsecond
  decide

variable {opening closing : List Char}

/-- A directive around a balanced text is read up to the closing tag behind that text. -/
theorem Balanced.read_eq (h : d.Balanced text) (hopening : d.OpeningTag false opening)
    (hclosing : d.ClosingTag closing) (offset : Nat) (rest : List Char) :
    d.read ⟨offset, opening ++ (text ++ closing) ++ rest⟩ =
      .ok (d.node text
          (Span.ofBounds offset (offset + byteLength (opening ++ (text ++ closing)))),
        ⟨offset + byteLength (opening ++ (text ++ closing)), rest⟩) := by
  obtain ⟨-, -, htake, hselfClosing⟩ := hopening.opensHere (text ++ (closing ++ rest))
  have hcontent : d.content offset 0 ⟨offset + byteLength opening, text ++ (closing ++ rest)⟩ = _ :=
    h.content_eq (hclosing.breaks rest)
  rw [content_closingTag hclosing, passing_ok, List.append_nil] at hcontent
  unfold read
  simp only [List.append_assoc, htake, hselfClosing, Cursor.past, Bool.false_eq_true, if_false,
    hcontent, Except.map, Text.byteLength_append, Nat.add_assoc]

theorem Balanced.pieceAt_eq {declarations : Declarations} {closer : Option Closer}
    (h : d.Balanced text) (hopening : d.OpeningTag false opening) (hclosing : d.ClosingTag closing)
    (offset : Nat) (rest : List Char) :
    Cursor.pieceAt declarations closer ⟨offset, opening ++ (text ++ closing) ++ rest⟩ =
      .ok (some (.leaf (d.node text
          (Span.ofBounds offset (offset + byteLength (opening ++ (text ++ closing)))))
        ⟨offset + byteLength (opening ++ (text ++ closing)), rest⟩)) := by
  have hread := h.read_eq hopening hclosing offset rest
  have hat := hopening.at?_eq (text ++ closing ++ rest)
  obtain ⟨inside, heq, hslash⟩ := hopening.exists_cons (text ++ closing ++ rest)
  rw [heq] at hat
  rw [List.append_assoc, heq] at hread ⊢
  change Cursor.tagAt _ _ _ _ = _
  rw [Cursor.tagAt_of_directive hslash hat, hread]
  rfl

end Directive

namespace NodeTree

open Directive (OpeningTag ClosingTag Balanced)
open Node (mapSpans unplaced)

/-- A directive around a balanced text of any depth is one node with just this text, which ends with
its closing tag. Behind it the nodes of the template that follows stand, further on. -/
theorem parse_nested {declarations : Declarations} {d : Directive}
    {opening text closing : List Char} {later : String} {tree : NodeTree}
    (hopening : d.OpeningTag false opening) (htext : d.Balanced text)
    (hclosing : d.ClosingTag closing) (hlater : parse declarations later = .ok tree) :
    let size := byteLength (opening ++ (text ++ closing))
    ∃ nodes, parse declarations (String.ofList (opening ++ (text ++ closing)) ++ later) =
        .ok ⟨d.node text (Span.ofBounds 0 size) :: nodes,
          Span.ofBounds 0 (size + byteLength later.toList)⟩ ∧
      nodes.map unplaced = tree.children.map unplaced ∧
      (size < 2 ^ 32 → (Span.ofBounds 0 size).stop = size) ∧
      (size + byteLength later.toList < 2 ^ 32 →
        nodes = tree.children.map (mapSpans (.shifted size))) := by
  intro size
  have halone : readAll declarations [] [] ⟨0, later.toList⟩ = .ok tree.children := by
    rw [parse_eq] at hlater
    split at hlater
    · rename_i hread
      cases hlater
      exact hread
    · cases hlater
  obtain ⟨nodes, hnodes, hunplaced⟩ := exists_readAll_unplaced halone size
  have htotal : (String.ofList (opening ++ (text ++ closing)) ++ later).toList =
      opening ++ (text ++ closing) ++ later.toList := by
    rw [String.toList_append, String.toList_ofList]
  have hpiece : Cursor.pieceAt declarations none
      ⟨0, opening ++ (text ++ closing) ++ later.toList⟩ = _ :=
    htext.pieceAt_eq hopening hclosing 0 later.toList
  rw [Nat.zero_add] at hpiece
  have hall : readAll declarations [] []
      ⟨0, (String.ofList (opening ++ (text ++ closing)) ++ later).toList⟩ =
        .ok (d.node text (Span.ofBounds 0 size) :: nodes) := by
    have hbase : OnBase [d.node text (Span.ofBounds 0 size)] [] [] []
        [d.node text (Span.ofBounds 0 size)] := .top []
    rw [htotal, readAll_of_pieceAt hpiece, readOn, readAll_onBase hbase, hnodes]
    rfl
  refine ⟨nodes, ?_, hunplaced, fun hmax => ?_, fun hmax => ?_⟩
  · rw [parse_eq, hall, htotal, Text.byteLength_append]
  · exact Span.stop_ofBounds (Nat.zero_le _) (Nat.le_of_lt_succ hmax)
  · have hmax : byteLength later.toList + size ≤ maxOffset := by
      rw [Nat.add_comm]
      exact Nat.le_of_lt_succ hmax
    rw [readAll_shifted hmax, halone] at hnodes
    exact (Except.ok.inj hnodes).symm

namespace NestedTemplate

def opening : List Char :=
  "<P:Raw".toList ++ (" a=1".toList ++ ['>'])

/-- Something like a closing tag, an empty tag, and a block with a tag of the other directive. -/
def text : List Char :=
  "x</p:rawer>".toList ++ (("<p:raw".toList ++ ([] ++ ['/', '>'])) ++ ("y".toList ++
    (("<p:RAW".toList ++ ("\n/ ".toList ++ ['>'])) ++ ("<p:comment>".toList ++
      (("</p:raw".toList ++ (['\n'] ++ ['>'])) ++ "z".toList)))))

def closing : List Char :=
  "</P:RAW".toList ++ ([' '] ++ ['>'])

def later : String :=
  "b<c:Box/>"

theorem openingTag : Directive.raw.OpeningTag false opening :=
  .block (by decide +kernel) (.text (by decide) (by decide))
    (by decide +kernel)

theorem innerOpeningTag :
    Directive.raw.OpeningTag false ("<p:RAW".toList ++ ("\n/ ".toList ++ ['>'])) :=
  .block (by decide +kernel) (.text (by decide) (by decide))
    (by decide +kernel)

theorem closingTag : Directive.raw.ClosingTag closing :=
  .intro (by decide +kernel) (by simp [Text.isMarkupSpace])

theorem innerClosingTag : Directive.raw.ClosingTag ("</p:raw".toList ++ (['\n'] ++ ['>'])) :=
  .intro (by decide +kernel) (by simp [Text.isMarkupSpace])

theorem balanced : Directive.raw.Balanced text :=
  have hblock := .block (by decide +kernel) innerOpeningTag (.plain (by decide +kernel))
    innerClosingTag (.plain (by decide +kernel))
  .empty (by decide +kernel) (.empty (by decide +kernel) .nil) hblock

end NestedTemplate

open NestedTemplate in
theorem parse_nested_nestedTemplate :
    (Directive.raw.OpeningTag false opening ∧ Directive.raw.Balanced text ∧
      Directive.raw.ClosingTag closing) ∧
    ∃ tree, parse [] later = .ok tree ∧
      parse [] (String.ofList (opening ++ (text ++ closing)) ++ later) =
        .ok ⟨.raw (String.ofList text) ⟨0, 71⟩ :: tree.children.map (mapSpans (.shifted 71)),
          ⟨0, 80⟩⟩ := by
  obtain ⟨tree, htree⟩ : ∃ tree, parse [] later = .ok tree := by
    have hisOk : (parse [] later).isOk = true := by decide +kernel
    cases hparse : parse [] later with
    | error e =>
      rw [hparse] at hisOk
      cases hisOk
    | ok tree => exact ⟨tree, rfl⟩
  have hsize : byteLength (opening ++ (text ++ closing)) = 71 := by decide +kernel
  have hlater : byteLength later.toList = 9 := by decide +kernel
  obtain ⟨nodes, hparse, -, -, hnodes⟩ := parse_nested openingTag balanced closingTag htree
  rw [hsize, hlater] at hnodes hparse
  rw [hnodes (by decide)] at hparse
  exact ⟨⟨openingTag, balanced, closingTag⟩, tree, htree, hparse⟩

end NodeTree

end PageEngine
