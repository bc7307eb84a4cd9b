import PageEngine.Declaration.Basic
import PageEngine.Markup.Attributes
import PageEngine.Markup.Directive

/-! What can stand at a `<`: a directive, the opening tag of an element, the closing tag that
is waited for, or plain text that only looks like a tag. A tag with a namespace carries its
type and bindings; a `wo` or `webobject` tag names a declaration. -/

namespace PageEngine

/-- The closing tag that an open element waits for. -/
structure Closer where
  name : List Char
  anyCase : Bool
  deriving DecidableEq, Repr

/-- What follows the name, if these characters after `</` close the element. -/
def Closer.closes? (closer : Closer) (cs : List Char) : Option (List Char) :=
  let rest? :=
    if closer.anyCase then afterWordAnyCase? closer.name cs else afterWord? closer.name cs
  rest?.filter Directive.endsCloser

theorem Closer.length_le_of_closes? {closer : Closer} {cs rest : List Char}
    (h : closer.closes? cs = some rest) : rest.length ≤ cs.length := by
  have h := (Option.filter_eq_some_iff.1 h).1
  split at h
  · have := length_of_afterWordAnyCase? h
    omega
  · rw [eq_of_afterWord? h, List.length_append]
    omega

/-- One thing that markup consists of besides plain text, with the place after it. -/
inductive Piece where
  /-- The end of the template. -/
  | finish
  /-- The closing tag that was waited for. -/
  | closing (after : Cursor)
  | leaf (node : Node) (after : Cursor)
  /-- An element without content. -/
  | empty (head : ElementHead) (after : Cursor)
  | opening (head : ElementHead) (closer : Closer) (after : Cursor)
  deriving Repr

/-- The place after a piece. -/
def Piece.after? : Piece → Option Cursor
  | .finish => none
  | .closing c => some c
  | .leaf _ c => some c
  | .empty _ c => some c
  | .opening _ _ c => some c

/-- The letters of `name:`, and what follows the colon. -/
def takeNamespace (cs : List Char) : Option (List Char × List Char) :=
  let letters := cs.takeWhile Char.isAlpha
  match letters, cs.dropWhile Char.isAlpha with
  | [], _ => none
  | _, ':' :: rest => some (letters, rest)
  | _, _ => none

theorem length_le_of_takeNamespace {cs letters rest : List Char}
    (h : takeNamespace cs = some (letters, rest)) : rest.length < cs.length := by
  have hdrop := (List.dropWhile_sublist (l := cs) Char.isAlpha).length_le
  unfold takeNamespace at h
  dsimp only at h
  split at h
  · simp at h
  · rename_i hcolon _
    simp only [Option.some.injEq, Prod.mk.injEq] at h
    obtain ⟨-, rfl⟩ := h
    rw [hcolon, List.length_cons] at hdrop
    omega
  · simp at h

def isIdentifierChar (c : Char) : Bool :=
  c.isAlphanum || c == '_' || c == '-'

/-- The keywords of tags that name a declaration, in any letter case. -/
def legacyKeywords : List String := ["webobject", "wo"]

/-- The keyword of such a tag, if these characters after `<` begin one. -/
def legacyKeyword? (cs : List Char) : Option String :=
  legacyKeywords.find? fun keyword =>
    match afterWordAnyCase? keyword.toList cs with
    | some (c :: _) => Text.isMarkupSpace c
    | _ => false

namespace Cursor

/-- The end of an opening tag: `/>` for an element without content, or `>`. -/
def tagEnd (head : ElementHead) (closer : Closer) (c : Cursor) : Except Fault Piece :=
  match c.skipSpace.rest with
  | '/' :: rest => ((c.skipSpace.past ['/'] rest).expect '>').map (.empty head)
  | _ => (c.skipSpace.expect '>').map (.opening head closer)

/-- A tag with a namespace, whose type begins at `c`. -/
def inlineTag (space : List Char) (c : Cursor) : Except Fault Piece :=
  let typeName := c.rest.takeWhile isIdentifierChar
  match (c.skipWhile isIdentifierChar).bindings [] with
  | .error fault => .error fault
  | .ok (bindings, after) =>
    let name := String.ofList typeName
    after.tagEnd ⟨String.ofList space, name, bindings, true, name⟩
      ⟨space ++ ':' :: typeName, false⟩

/-- A tag that names a declaration; its keyword begins at `c`, the tag itself at `start`. -/
def legacyTag (declarations : Declarations) (keyword : String) (start : Nat) (c : Cursor) :
    Except Fault Piece :=
  match (c.skipWhile Char.isAlpha).bindings [] with
  | .error fault => .error fault
  | .ok (attributes, after) =>
    let name := ((Dictionary.get? "name" attributes).bind BindingValue.unquoted).getD ""
    if name.isEmpty then
      .error ⟨.missingLegacyName (String.ofList (c.rest.takeWhile Char.isAlpha)), start⟩
    else
      match Dictionary.get? name declarations with
      | none => .error ⟨.undeclaredElement name, start⟩
      | some d => after.tagEnd d.head ⟨keyword.toList, true⟩

/-- Closing tags that nothing waits for are text, except those that are surely slips: with a
namespace, or with a blank before one. -/
def strayClosing (closer : Option Closer) (start : Nat) (cs : List Char) : Except Fault Unit :=
  let afterSpace := cs.dropWhile Text.isMarkupSpace
  if afterSpace.length < cs.length ∧ (takeNamespace afterSpace).isSome then
    .error ⟨.spaceAfterClosingBracket, start⟩
  else
    match takeNamespace cs with
    | none => .ok ()
    | some (space, rest) =>
      match closer with
      | some closer => .error ⟨.mismatchedClosingTag (String.ofList closer.name), start⟩
      | none =>
        let name := space ++ ':' :: rest.takeWhile isIdentifierChar
        .error ⟨.unopenedClosingTag (String.ofList name), start⟩

/-- The piece that begins with the `<` at `c`, which `rest` follows, if it is no plain text. -/
def tagAt (declarations : Declarations) (closer : Option Closer) (c : Cursor) (rest : List Char) :
    Except Fault (Option Piece) :=
  let inside := c.past ['<'] rest
  match rest with
  | '/' :: cs =>
    match closer.bind (·.closes? cs) with
    | some after =>
      let name := cs.take (cs.length - after.length)
      (((inside.past ['/'] cs).past name after).skipSpace.expect '>').map (some ∘ .closing)
    | none => (strayClosing closer c.offset cs).map fun _ => none
  | _ =>
    match Directive.at? c.rest with
    | some d => (d.read c).map fun (node, after) => some (.leaf node after)
    | none =>
      match takeNamespace rest with
      | some (space, afterColon) =>
        match afterColon with
        | [] => .ok none
        | x :: _ =>
          if Text.isMarkupSpace x then .error ⟨.spaceAfterNamespace, c.offset⟩
          else if x.isAlphanum then
            (inlineTag space (inside.past (space ++ [':']) afterColon)).map some
          else .ok none
      | none =>
        match legacyKeyword? rest with
        | some keyword => (legacyTag declarations keyword c.offset inside).map some
        | none => .ok none

/-- The piece that begins at `c`, if it is no plain text. -/
def pieceAt (declarations : Declarations) (closer : Option Closer) (c : Cursor) :
    Except Fault (Option Piece) :=
  match c.rest with
  | [] => .ok (some .finish)
  | '<' :: rest => c.tagAt declarations closer rest
  | _ => .ok none

/-- The plain text from `offset` on, and the piece after it. -/
def scan (declarations : Declarations) (closer : Option Closer) (offset : Nat) :
    List Char → List Char × Except Fault Piece
  | [] => ([], .ok .finish)
  | c :: cs =>
    match pieceAt declarations closer ⟨offset, c :: cs⟩ with
    | .error fault => ([], .error fault)
    | .ok (some piece) => ([], .ok piece)
    | .ok none =>
      let (text, piece) := scan declarations closer (offset + c.utf8Size) cs
      (c :: text, piece)

theorem length_lt_of_tagEnd {head : ElementHead} {closer : Closer} {c d : Cursor} {p : Piece}
    (h : c.tagEnd head closer = .ok p) (hp : p.after? = some d) :
    d.rest.length < c.rest.length := by
  have hspace := length_skipSpace_le c
  unfold tagEnd at h
  split at h
  · rename_i rest hrest
    obtain ⟨e, he, rfl⟩ := exists_of_map_ok h
    obtain rfl := Option.some.inj hp
    have := length_lt_of_expect he
    have : rest.length < c.skipSpace.rest.length := by rw [hrest]; simp
    rw [rest_past] at *
    omega
  · obtain ⟨e, he, rfl⟩ := exists_of_map_ok h
    obtain rfl := Option.some.inj hp
    have := length_lt_of_expect he
    omega

theorem length_lt_of_inlineTag {space : List Char} {c d : Cursor} {p : Piece}
    (h : inlineTag space c = .ok p) (hp : p.after? = some d) :
    d.rest.length < c.rest.length := by
  unfold inlineTag at h
  dsimp only at h
  split at h
  · simp at h
  · rename_i hb
    have h1 := length_lt_of_tagEnd h hp
    have h2 := length_le_of_bindings hb
    have h3 := length_skipWhile_le isIdentifierChar c
    omega

theorem length_lt_of_legacyTag {declarations : Declarations} {keyword : String} {start : Nat}
    {c d : Cursor} {p : Piece} (h : legacyTag declarations keyword start c = .ok p)
    (hp : p.after? = some d) : d.rest.length < c.rest.length := by
  unfold legacyTag at h
  dsimp only at h
  split at h
  · simp at h
  · rename_i hb
    split at h
    · simp at h
    · split at h
      · simp at h
      · have h1 := length_lt_of_tagEnd h hp
        have h2 := length_le_of_bindings hb
        have h3 := length_skipWhile_le Char.isAlpha c
        omega

theorem length_lt_of_tagAt {declarations : Declarations} {closer : Option Closer} {c d : Cursor}
    {rest : List Char} {p : Piece} (hrest : c.rest = '<' :: rest)
    (h : c.tagAt declarations closer rest = .ok (some p)) (hp : p.after? = some d) :
    d.rest.length < c.rest.length := by
  have hlen : c.rest.length = rest.length + 1 := by rw [hrest]; rfl
  unfold tagAt at h
  dsimp only at h
  split at h
  · rename_i cs
    split at h
    · rename_i after hclose
      obtain ⟨closer, -, hcloses⟩ := Option.bind_eq_some_iff.1 hclose
      have h1 := Closer.length_le_of_closes? hcloses
      generalize hfrom : (((c.past ['<'] ('/' :: cs)).past ['/'] cs).past
        (cs.take (cs.length - after.length)) after) = from_ at h
      have h2 := length_skipSpace_le from_
      have h3 : from_.rest = after := by rw [← hfrom]; rfl
      obtain ⟨e, he, heq⟩ := exists_of_map_ok h
      cases heq
      obtain rfl := Option.some.inj hp
      have h4 := length_lt_of_expect he
      simp only [List.length_cons] at hlen
      rw [h3] at h2
      omega
    · obtain ⟨_, _, heq⟩ := exists_of_map_ok h
      cases heq
  · split at h
    · rename_i directive _
      obtain ⟨r, hd, heq⟩ := exists_of_map_ok h
      cases heq
      obtain rfl := Option.some.inj hp
      exact Directive.length_lt_of_read hd
    · split at h
      · rename_i space afterColon hspace
        have hcolon := length_le_of_takeNamespace hspace
        split at h
        · simp at h
        · split at h
          · simp at h
          · split at h
            · rename_i x xs _ _
              generalize hfrom : (c.past ['<'] rest).past (space ++ [':']) (x :: xs) = from_ at h
              have h3 : from_.rest = x :: xs := by rw [← hfrom]; rfl
              obtain ⟨q, hi, heq⟩ := exists_of_map_ok h
              cases heq
              have h4 := length_lt_of_inlineTag hi hp
              rw [h3] at h4
              omega
            · simp at h
      · split at h
        · rename_i keyword _
          obtain ⟨q, hl, heq⟩ := exists_of_map_ok h
          cases heq
          have h4 := length_lt_of_legacyTag hl hp
          rw [rest_past] at h4
          omega
        · simp at h

/-- What is read after a piece is shorter than what was to be read before the text and the
piece. -/
theorem length_lt_of_scan {declarations : Declarations} {closer : Option Closer} {offset : Nat}
    {cs text : List Char} {p : Piece} {d : Cursor}
    (h : scan declarations closer offset cs = (text, .ok p)) (hp : p.after? = some d) :
    d.rest.length < cs.length := by
  induction cs generalizing offset text with
  | nil =>
    simp only [scan, Prod.mk.injEq, Except.ok.injEq] at h
    obtain ⟨-, rfl⟩ := h
    simp [Piece.after?] at hp
  | cons c cs ih =>
    rw [scan] at h
    split at h
    · simp at h
    · rename_i q hq
      simp only [Prod.mk.injEq, Except.ok.injEq] at h
      obtain ⟨-, rfl⟩ := h
      unfold pieceAt at hq
      split at hq
      · simp at *
      · rename_i rest hrest
        exact length_lt_of_tagAt hrest hq hp
      · simp at hq
    · simp only [Prod.mk.injEq] at h
      have := ih (Prod.ext rfl h.2)
      simp only [List.length_cons]
      omega

end Cursor

end PageEngine
