import PageEngine.Proofs.Markup.Lossless
import PageEngine.Proofs.Markup.RoundTrip

/-! Reading from another place. A reader looks at the characters that are still to be read; the
offset only goes into faults and spans. From a place some bytes further on it therefore reads the
same, with all offsets further on as well. -/

namespace PageEngine

open Text (byteLength)

/-! ### Places, faults and results further on -/

/-- The same characters, `n` bytes further on. -/
def Cursor.moved (n : Nat) (c : Cursor) : Cursor :=
  ⟨c.offset + n, c.rest⟩

def Fault.moved (n : Nat) (fault : Fault) : Fault :=
  ⟨fault.kind, fault.offset + n⟩

/-- A result `n` bytes further on; `f` moves its value. -/
def movedBy {α β : Type} (n : Nat) (f : α → β) : Except Fault α → Except Fault β
  | .ok x => .ok (f x)
  | .error fault => .error (fault.moved n)

theorem map_movedBy {α β γ δ : Type} {n : Nat} {f : α → β} {g : β → γ} {f' : δ → γ} {g' : α → δ}
    (result : Except Fault α) (h : ∀ x, g (f x) = f' (g' x)) :
    (movedBy n f result).map g = movedBy n f' (result.map g') := by
  cases result with
  | error => rfl
  | ok x => exact congrArg Except.ok (h x)

namespace Cursor

variable {n : Nat} {c : Cursor}

@[simp] theorem rest_moved : (c.moved n).rest = c.rest := rfl

@[simp] theorem offset_moved : (c.moved n).offset = c.offset + n := rfl

theorem past_moved (taken rest : List Char) :
    (c.moved n).past taken rest = (c.past taken rest).moved n := by
  simp [past, moved, Nat.add_right_comm]

theorem skipWhile_moved (p : Char → Bool) : (c.moved n).skipWhile p = (c.skipWhile p).moved n :=
  past_moved _ _

theorem skipSpace_moved : (c.moved n).skipSpace = c.skipSpace.moved n :=
  skipWhile_moved _

theorem expect_moved (expected : Char) :
    (c.moved n).expect expected = movedBy n (moved n) (c.expect expected) := by
  unfold expect
  rw [rest_moved]
  cases c.rest with
  | nil => rfl
  | cons found rest =>
    dsimp only
    split
    · exact congrArg Except.ok (past_moved _ _)
    · rfl

/-! ### Bindings -/

/-- What was read stays, the place is further on. -/
def thenMoved {α : Type} (n : Nat) (read : α × Cursor) : α × Cursor :=
  (read.1, read.2.moved n)

theorem bindingValue_moved : (c.moved n).bindingValue = movedBy n (thenMoved n) c.bindingValue := by
  unfold bindingValue
  rw [rest_moved]
  cases c.rest with
  | nil => rfl
  | cons quote rest =>
    dsimp only
    split
    · cases takeQuoted quote rest with
      | none => rfl
      | some found =>
        dsimp only
        rw [past_moved]
        rfl
    · split
      · rfl
      · rw [skipWhile_moved]
        rfl

theorem binding_moved : (c.moved n).binding = movedBy n (thenMoved n) c.binding := by
  unfold binding
  rw [rest_moved, skipWhile_moved, skipSpace_moved]
  dsimp only [rest_moved]
  split
  · rfl
  · split
    · rw [past_moved, skipSpace_moved, bindingValue_moved]
      exact map_movedBy _ fun _ => rfl
    · rfl

theorem bindings_moved (found : Bindings) (c : Cursor) :
    (c.moved n).bindings found = movedBy n (thenMoved n) (c.bindings found) := by
  induction hlength : c.rest.length using Nat.strongRecOn generalizing found c with
  | ind _ ih =>
    rw [bindings_eq, bindings_eq, skipSpace_moved, rest_moved]
    cases hrest : c.skipSpace.rest with
    | nil => rfl
    | cons x rest =>
      dsimp only
      split
      · rfl
      · rw [binding_moved]
        cases hbinding : c.skipSpace.binding with
        | error fault => rfl
        | ok read =>
          have hlt := length_lt_of_binding hbinding
          have hle := length_skipSpace_le c
          exact ih _ (by omega) _ _ rfl

end Cursor

/-! ### Pieces -/

namespace Node

/-- The node with another span. -/
def withSpan (span : Span) : Node → Node
  | .text shown _ => .text shown span
  | .comment shown _ => .comment shown span
  | .raw shown _ => .raw shown span
  | .element head children _ => .element head children span

end Node

namespace Directive

variable {d : Directive} {n : Nat}

theorem content_moved (start depth : Nat) (c : Cursor) :
    d.content (start + n) depth (c.moved n) =
      movedBy n (Cursor.thenMoved n) (d.content start depth c) := by
  induction hlength : c.rest.length using Nat.strongRecOn generalizing depth c with
  | ind _ ih =>
    -- What is left behind a part of the content is moved by the induction hypothesis.
    have hafter {depth : Nat} {taken rest : List Char} {f : List Char → List Char}
        (hlt : rest.length < c.rest.length) :
        (d.content (start + n) depth ((c.moved n).past taken rest)).map
            (fun found => (f found.1, found.2)) =
          movedBy n (Cursor.thenMoved n) ((d.content start depth (c.past taken rest)).map
            fun found => (f found.1, found.2)) := by
      rw [Cursor.past_moved, ih _ (hlength ▸ hlt) _ _ rfl]
      exact map_movedBy _ fun _ => rfl
    cases hrest : c.rest with
    | nil =>
      rw [content, content]
      split
      · split
        · rfl
        · simp_all
      · simp_all
    | cons x rest =>
      rw [content_eq (show (c.moved n).rest = x :: rest from hrest), content_eq hrest,
        Cursor.rest_moved]
      cases hcloses : d.closes? c.rest with
      | some after =>
        cases depth with
        | zero =>
          dsimp only
          rw [Cursor.past_moved, Cursor.skipSpace_moved, Cursor.expect_moved]
          cases (c.past (c.rest.take d.closer.length) after).skipSpace.expect '>' <;> rfl
        | succ depth => exact hafter (length_lt_of_closes? hcloses)
      | none =>
        dsimp only
        split
        · cases htag : takeTag c.rest with
          | none => rfl
          | some found =>
            obtain ⟨heq, hne⟩ := eq_of_takeTag htag
            have hpos := List.length_pos_iff.2 hne
            exact hafter (by rw [heq, List.length_append]; omega)
        · exact hafter (by rw [hrest, List.length_cons]; omega)

/-- What a directive is read as, `n` bytes further on. -/
def movedLeaf (n start : Nat) (read : Node × Cursor) : Node × Cursor :=
  (read.1.withSpan (Span.ofBounds (start + n) (read.2.offset + n)), read.2.moved n)

theorem read_moved (c : Cursor) :
    d.read (c.moved n) = movedBy n (movedLeaf n c.offset) (d.read c) := by
  unfold read
  rw [Cursor.rest_moved]
  cases takeTag c.rest with
  | none => rfl
  | some found =>
    dsimp only
    split
    · rw [Cursor.past_moved]
      cases d <;> rfl
    · rw [Cursor.past_moved, Cursor.offset_moved, content_moved]
      refine map_movedBy _ fun _ => ?_
      cases d <;> rfl

end Directive

/-- A piece that began at `start`, read `n` bytes further on. -/
def Piece.moved (n start : Nat) : Piece → Piece
  | .finish => .finish
  | .closing after => .closing (after.moved n)
  | .leaf node after =>
    .leaf (node.withSpan (Span.ofBounds (start + n) (after.offset + n))) (after.moved n)
  | .empty head after => .empty head (after.moved n)
  | .opening head closer after => .opening head closer (after.moved n)

namespace Cursor

variable {n start : Nat} {c : Cursor} {closer : Option Closer} {declarations : Declarations}

theorem tagEnd_moved (head : ElementHead) (closer : Closer) :
    (c.moved n).tagEnd head closer = movedBy n (Piece.moved n start) (c.tagEnd head closer) := by
  unfold tagEnd
  rw [skipSpace_moved, rest_moved]
  split
  · rw [past_moved, expect_moved]
    exact map_movedBy _ fun _ => rfl
  · rw [expect_moved]
    exact map_movedBy _ fun _ => rfl

theorem inlineTag_moved (start : Nat) (space : List Char) :
    inlineTag space (c.moved n) = movedBy n (Piece.moved n start) (inlineTag space c) := by
  unfold inlineTag
  rw [rest_moved, skipWhile_moved, bindings_moved]
  cases (c.skipWhile isIdentifierChar).bindings [] with
  | error fault => rfl
  | ok read => exact tagEnd_moved _ _

theorem legacyTag_moved (keyword : String) :
    legacyTag declarations keyword (start + n) (c.moved n) =
      movedBy n (Piece.moved n start) (legacyTag declarations keyword start c) := by
  unfold legacyTag
  rw [rest_moved, skipWhile_moved, bindings_moved]
  cases (c.skipWhile Char.isAlpha).bindings [] with
  | error fault => rfl
  | ok read =>
    dsimp only [movedBy, thenMoved]
    split
    · rfl
    · split
      · rfl
      · exact tagEnd_moved _ _

theorem strayClosing_moved (cs : List Char) :
    strayClosing closer (start + n) cs = movedBy n id (strayClosing closer start cs) := by
  unfold strayClosing
  dsimp only
  split
  · rfl
  · cases takeNamespace cs with
    | none => rfl
    | some found => cases closer <;> rfl

/-- What begins at a `<` begins there also when it stands further on. -/
theorem tagAt_moved (rest : List Char) :
    (c.moved n).tagAt declarations closer rest =
      movedBy n (Option.map (Piece.moved n c.offset)) (c.tagAt declarations closer rest) := by
  by_cases hslash : ∃ cs, rest = '/' :: cs
  · obtain ⟨cs, rfl⟩ := hslash
    rw [tagAt_slash, tagAt_slash]
    cases closer.bind (·.closes? cs) with
    | some after =>
      dsimp only
      rw [past_moved, past_moved, past_moved, skipSpace_moved, expect_moved]
      exact map_movedBy _ fun _ => rfl
    | none =>
      dsimp only
      rw [offset_moved, strayClosing_moved]
      exact map_movedBy _ fun _ => rfl
  · rw [not_exists] at hslash
    rw [tagAt_open hslash, tagAt_open hslash, rest_moved, past_moved]
    cases Directive.at? c.rest with
    | some d =>
      dsimp only
      rw [Directive.read_moved]
      exact map_movedBy _ fun _ => rfl
    | none =>
      cases takeNamespace rest with
      | none =>
        cases legacyKeyword? rest with
        | none => rfl
        | some keyword =>
          dsimp only
          rw [offset_moved, legacyTag_moved]
          exact map_movedBy _ fun _ => rfl
      | some found =>
        obtain ⟨space, _ | ⟨x, after⟩⟩ := found
        · rfl
        · dsimp only
          split
          · rfl
          · split
            · rw [past_moved, inlineTag_moved c.offset]
              exact map_movedBy _ fun _ => rfl
            · rfl

theorem pieceAt_moved (c : Cursor) :
    (c.moved n).pieceAt declarations closer =
      movedBy n (Option.map (Piece.moved n c.offset)) (c.pieceAt declarations closer) := by
  unfold pieceAt
  rw [rest_moved]
  split
  · rfl
  · exact tagAt_moved _
  · rfl

theorem scan_moved (offset : Nat) (cs : List Char) :
    scan declarations closer (offset + n) cs =
      ((scan declarations closer offset cs).1,
        movedBy n (Piece.moved n (offset + byteLength (scan declarations closer offset cs).1))
          (scan declarations closer offset cs).2) := by
  induction cs generalizing offset with
  | nil => rfl
  | cons x cs ih =>
    rw [scan, scan, show (⟨offset + n, x :: cs⟩ : Cursor) = moved n ⟨offset, x :: cs⟩ from rfl,
      pieceAt_moved]
    cases pieceAt declarations closer ⟨offset, x :: cs⟩ with
    | error fault => rfl
    | ok piece =>
      cases piece with
      | some piece => rfl
      | none =>
        dsimp only [movedBy, Option.map_none]
        rw [Nat.add_right_comm, ih, Text.byteLength_cons, Nat.add_assoc]
        rfl

end Cursor

/-! ### Trees -/

namespace Node

mutual

/-- The node with every span in it changed by `f`. -/
def mapSpans (f : Span → Span) : Node → Node
  | .text shown span => .text shown (f span)
  | .comment shown span => .comment shown (f span)
  | .raw shown span => .raw shown (f span)
  | .element head children span => .element head (mapSpansAll f children) (f span)

def mapSpansAll (f : Span → Span) : List Node → List Node
  | [] => []
  | n :: ns => mapSpans f n :: mapSpansAll f ns

end

variable {f : Span → Span}

theorem mapSpansAll_eq (nodes : List Node) : mapSpansAll f nodes = nodes.map (mapSpans f) := by
  induction nodes with
  | nil => rfl
  | cons n ns ih => rw [mapSpansAll, List.map_cons, ih]

theorem mapSpans_element (head : ElementHead) (nodes : List Node) (span : Span) :
    mapSpans f (.element head nodes.reverse span) =
      .element head (nodes.map (mapSpans f)).reverse (f span) := by
  rw [mapSpans, mapSpansAll_eq, List.map_reverse]

end Node

/-- Of a span that is moved by `n` bytes `f` makes what `g` makes of the span itself, for spans
that end before `limit`. -/
def Span.AgreeMoved (f g : Span → Span) (n limit : Nat) : Prop :=
  ∀ start stop, start ≤ stop → stop ≤ limit →
    f (.ofBounds (start + n) (stop + n)) = g (.ofBounds start stop)

namespace NodeTree

open Node (mapSpans)

/-- The same open element, read `n` bytes further on, with what was gathered before it. -/
structure OpenElement.Moved (f g : Span → Span) (n : Nat) (e e' : OpenElement) : Prop where
  head : e'.head = e.head
  closer : e'.closer = e.closer
  offset : e'.offset = e.offset + n
  before : e'.before.map (mapSpans f) = e.before.map (mapSpans g)

variable {f g : Span → Span} {n limit : Nat} {declarations : Declarations}
variable {stack stack' : List OpenElement} {nodes nodes' : List Node}

theorem awaited_moved (h : List.Forall₂ (OpenElement.Moved f g n) stack stack') :
    awaited stack' = awaited stack := by
  cases h with
  | nil => rfl
  | cons h _ => exact congrArg some h.closer

theorem addText_moved (hspans : Span.AgreeMoved f g n limit) {start : Nat} {text : List Char}
    (hlimit : start + byteLength text ≤ limit)
    (h : nodes'.map (mapSpans f) = nodes.map (mapSpans g)) :
    (addText (start + n) text nodes').map (mapSpans f) =
      (addText start text nodes).map (mapSpans g) := by
  unfold addText
  split
  · exact h
  · rw [List.map_cons, List.map_cons, h, Nat.add_right_comm, mapSpans, mapSpans,
      hspans _ _ (Nat.le_add_right _ _) hlimit]

theorem element_moved {head : ElementHead} {span span' : Span}
    (hnodes : nodes'.map (mapSpans f) = nodes.map (mapSpans g)) (hspan : f span' = g span) :
    mapSpans f (.element head nodes'.reverse span') =
      mapSpans g (.element head nodes.reverse span) := by
  rw [Node.mapSpans_element, Node.mapSpans_element, hnodes, hspan]

theorem leaf_moved {node : Node} {span span' : Span} (hnode : node.children = [])
    (hspan : node.span = span) (h : f span' = g span) :
    mapSpans f (node.withSpan span') = mapSpans g node := by
  subst hspan
  cases node with
  | element head children span =>
    cases (show children = [] from hnode)
    rw [Node.withSpan, mapSpans, mapSpans, h]
    rfl
  | _ => rw [Node.withSpan, mapSpans, mapSpans, h]; rfl

/-- From a place further on the same tree is read, or the same fault is found. -/
theorem readAll_moved (hspans : Span.AgreeMoved f g n limit) {c : Cursor}
    (hlimit : c.offset + byteLength c.rest ≤ limit)
    (hstack : List.Forall₂ (OpenElement.Moved f g n) stack stack')
    (hopen : ∀ e ∈ stack, e.offset ≤ c.offset)
    (hnodes : nodes'.map (mapSpans f) = nodes.map (mapSpans g)) :
    (readAll declarations stack' nodes' (c.moved n)).map (List.map (mapSpans f)) =
      movedBy n (List.map (mapSpans g)) (readAll declarations stack nodes c) := by
  induction hlength : c.rest.length using Nat.strongRecOn
      generalizing stack stack' nodes nodes' c with
  | ind _ ih =>
    cases hscan : Cursor.scan declarations (awaited stack) c.offset c.rest with
    | mk text result =>
    have hmoved : Cursor.scan declarations (awaited stack') (c.moved n).offset (c.moved n).rest =
        (text, movedBy n (Piece.moved n (c.offset + byteLength text)) result) := by
      rw [awaited_moved hstack]
      refine (Cursor.scan_moved c.offset c.rest).trans ?_
      rw [hscan]
    rw [readAll_of_scan hscan, readAll_of_scan hmoved]
    cases result with
    | error fault => rfl
    | ok piece =>
      obtain ⟨d, hd, hfrom⟩ := Cursor.exists_of_scan hscan
      have htotal : d.offset + byteLength d.rest = c.offset + byteLength c.rest := hd.total
      have hstart : d.offset = c.offset + byteLength text := hd.offset
      have hend : c.offset + byteLength text ≤ limit := by omega
      have hgathered := addText_moved hspans hend hnodes
      -- The place behind the piece lies between the piece and the end of the text.
      have hplace {after : Cursor} (hafter : piece.after? = some after) :
          c.offset + byteLength text ≤ after.offset ∧
            after.offset + byteLength after.rest ≤ limit ∧ after.rest.length < c.rest.length := by
        obtain ⟨taken, hread⟩ := hfrom.exists_reads hafter
        have hend := hread.total
        have hoffset := hread.offset
        exact ⟨by omega, by omega, Cursor.length_lt_of_scan hscan hafter⟩
      have hlater {after : Cursor} (hafter : piece.after? = some after) :
          ∀ e ∈ stack, e.offset ≤ after.offset := fun e he =>
        (hopen e he).trans (le_trans (Nat.le_add_right _ _) (hplace hafter).1)
      cases piece with
      | finish =>
        cases hstack with
        | nil =>
          refine congrArg Except.ok ?_
          rw [List.map_reverse, List.map_reverse, Cursor.offset_moved, hgathered]
        | cons he => exact congrArg Except.error (by rw [Fault.moved, he.closer, he.offset])
      | closing after =>
        obtain ⟨hle, hend, hlt⟩ := hplace rfl
        cases hstack with
        | nil =>
          refine congrArg Except.ok ?_
          rw [List.map_reverse, List.map_reverse, Cursor.offset_moved, hgathered]
        | cons he houter =>
          have hspan := hspans _ _ (hlater rfl _ List.mem_cons_self) (by omega)
          refine ih _ (hlength ▸ hlt) hend houter
            (fun e he => hlater rfl e (List.mem_cons_of_mem _ he)) ?_ rfl
          rw [List.map_cons, List.map_cons, he.before, he.head, he.offset]
          exact congrArg (· :: _) (element_moved hgathered hspan)
      | leaf node after =>
        obtain ⟨hle, hend, hlt⟩ := hplace rfl
        obtain ⟨cs, hread, hspelled, -, hchildren⟩ := hfrom
        have hspan := hspans _ _ hle (by omega)
        refine ih _ (hlength ▸ hlt) hend hstack (hlater rfl) ?_ rfl
        rw [List.map_cons, List.map_cons, Cursor.offset_moved, hgathered]
        refine congrArg (· :: _) (leaf_moved hchildren ?_ hspan)
        rw [hspelled.span_eq, ← hread.offset, hstart]
      | empty head after =>
        obtain ⟨hle, hend, hlt⟩ := hplace rfl
        have hspan := hspans _ _ hle (by omega)
        rw [Nat.add_right_comm] at hspan
        have hempty : ([] : List Node).map (mapSpans f) = [].map (mapSpans g) := rfl
        refine ih _ (hlength ▸ hlt) hend hstack (hlater rfl) ?_ rfl
        rw [List.map_cons, List.map_cons, Cursor.offset_moved, hgathered]
        exact congrArg (· :: _) (element_moved hempty hspan)
      | opening head closer after =>
        obtain ⟨hle, hend, hlt⟩ := hplace rfl
        refine ih _ (hlength ▸ hlt) hend (.cons ⟨rfl, rfl, ?_, ?_⟩ hstack) ?_ rfl rfl
        · exact Nat.add_right_comm ..
        · exact hgathered
        · exact List.forall_mem_cons.2 ⟨hle, hlater rfl⟩

end NodeTree

end PageEngine
