import PageEngine.Proofs.Markup.Readback

/-! A printed tree is read back. A template reader that is about to read a printed node adds just
that node to what it has gathered, and goes on behind it. For a text this needs that markup or
nothing follows; for the other nodes it does not matter what follows, nor which elements are open
around them. -/

namespace PageEngine

open Text (byteLength byteLength_append)

namespace NodeTree

variable {declarations : Declarations} {stack : List OpenElement} {nodes : List Node}
variable {closer : Option Closer} {c after : Cursor} {offset : Nat} {rest : List Char}

/-- The closing tag that is waited for. -/
abbrev awaited (stack : List OpenElement) : Option Closer :=
  stack.head?.map OpenElement.closer

/-! ### One piece -/

/-- What a template reader does with a piece that begins at `start`. -/
def readOn (declarations : Declarations) (stack : List OpenElement) (nodes : List Node)
    (start : Nat) : Piece → Except Fault (List Node)
  | .finish =>
    match stack with
    | [] => .ok nodes.reverse
    | e :: _ => .error ⟨.unclosedElement (String.ofList e.closer.name), e.offset⟩
  | .closing after =>
    match stack with
    | [] => .ok nodes.reverse
    | e :: outer => readAll declarations outer
        (.element e.head nodes.reverse (Span.ofBounds e.offset after.offset) :: e.before) after
  | .leaf node after => readAll declarations stack (node :: nodes) after
  | .empty head after => readAll declarations stack
      (.element head [] (Span.ofBounds start after.offset) :: nodes) after
  | .opening head closer after =>
    readAll declarations (⟨head, closer, start, nodes⟩ :: stack) [] after

theorem readAll_of_scan {text : List Char} {result : Except Fault Piece}
    (h : Cursor.scan declarations (awaited stack) c.offset c.rest = (text, result)) :
    readAll declarations stack nodes c = result.bind
      (readOn declarations stack (addText c.offset text nodes) (c.offset + byteLength text)) := by
  rw [readAll]
  split
  · rename_i hscan
    cases h.symm.trans hscan
    rfl
  · rename_i piece hscan
    cases h.symm.trans hscan
    cases piece <;> rfl

/-- Markup, or the end, begins at the place. -/
def StartsPiece (declarations : Declarations) (closer : Option Closer) (c : Cursor) : Prop :=
  (Cursor.scan declarations closer c.offset c.rest).1 = []

theorem scan_of_pieceAt {piece : Piece}
    (h : Cursor.pieceAt declarations closer c = .ok (some piece)) :
    Cursor.scan declarations closer c.offset c.rest = ([], .ok piece) := by
  obtain ⟨offset, rest⟩ := c
  cases rest with
  | nil =>
    cases h
    rfl
  | cons x xs => rw [Cursor.scan, h]

theorem startsPiece_of_pieceAt {piece : Piece}
    (h : Cursor.pieceAt declarations closer c = .ok (some piece)) :
    StartsPiece declarations closer c := by
  rw [StartsPiece, scan_of_pieceAt h]

theorem readAll_of_pieceAt {piece : Piece}
    (h : Cursor.pieceAt declarations (awaited stack) c = .ok (some piece)) :
    readAll declarations stack nodes c = readOn declarations stack nodes c.offset piece := by
  rw [readAll_of_scan (scan_of_pieceAt h)]
  rfl

theorem StartsPiece.breaks (h : StartsPiece declarations closer c) : Breaks c.rest := by
  obtain ⟨offset, rest⟩ := c
  intro x hx
  cases rest with
  | nil => cases hx
  | cons y ys =>
    cases hx
    by_contra hne
    have hnone : Cursor.pieceAt declarations closer ⟨offset, x :: ys⟩ = .ok none := by
      simp [Cursor.pieceAt, hne]
    rw [StartsPiece, Cursor.scan, hnone] at h
    cases h

theorem readAll_nil (declarations : Declarations) (nodes : List Node) (offset : Nat) :
    readAll declarations [] nodes ⟨offset, []⟩ = .ok nodes.reverse := by
  rw [readAll]
  rfl

/-- Plain text before markup is one text. -/
theorem readAll_text {text : List Char} (hplain : Cursor.Plain text)
    (hinline : ∀ waited ∈ awaited stack, waited.IsInline)
    (hrest : StartsPiece declarations (awaited stack) ⟨offset + byteLength text, rest⟩) :
    readAll declarations stack nodes ⟨offset, text ++ rest⟩ =
      readAll declarations stack (addText offset text nodes) ⟨offset + byteLength text, rest⟩ := by
  have hscan := Cursor.scan_append declarations offset
    (fun _ _ _ => ⟨.inr hrest.breaks, .of_isInline (.inr hrest.breaks) hinline⟩) hplain
  have htext : (Cursor.scan declarations (awaited stack) (offset + byteLength text) rest).1 = [] :=
    hrest
  rw [htext, List.append_nil] at hscan
  rw [readAll_of_scan hscan, readAll_of_scan (Prod.ext hrest rfl)]
  rfl

end NodeTree

/-! ### Trees -/

namespace Node

open NodeTree

variable {declarations : Declarations} {closer : Option Closer} {stack : List OpenElement}
variable {nodes children : List Node} {offset : Nat} {rest : List Char} {head : ElementHead}
variable {span : Span}

theorem startsPiece_print {n : Node} (h : n.Printable) (hisText : n.isText = false) :
    StartsPiece declarations closer ⟨offset, n.print ++ rest⟩ := by
  cases n with
  | text => cases hisText
  | comment content =>
    rw [Printable] at h
    exact startsPiece_of_pieceAt (Directive.pieceAt_print h)
  | raw content =>
    rw [Printable] at h
    exact startsPiece_of_pieceAt (Directive.pieceAt_print h)
  | element head children =>
    rw [Printable] at h
    rw [print, List.append_assoc]
    split
    · exact startsPiece_of_pieceAt h.1.pieceAt_empty
    · exact startsPiece_of_pieceAt h.1.pieceAt_opening

theorem readAll_printed_text {shown : String} (h : StandsAlone shown)
    (hinline : ∀ waited ∈ awaited stack, waited.IsInline)
    (hrest : StartsPiece declarations (awaited stack)
      ⟨offset + byteLength shown.toList, rest⟩) :
    readAll declarations stack nodes ⟨offset, print (.text shown span) ++ rest⟩ =
      readAll declarations stack (placed offset (.text shown span) :: nodes)
        ⟨offset + byteLength (print (.text shown span)), rest⟩ := by
  obtain ⟨_, _, _, _, hparse, htree⟩ := h
  obtain ⟨hplain, hne⟩ := plain_of_parse hparse htree
  rw [print, readAll_text hplain hinline hrest, addText, if_neg (by simpa using hne), placed, print,
    String.ofList_toList]

theorem readAll_printed_empty (h : head.Printable) :
    readAll declarations stack nodes ⟨offset, print (.element head [] span) ++ rest⟩ =
      readAll declarations stack (placed offset (.element head [] span) :: nodes)
        ⟨offset + byteLength (print (.element head [] span)), rest⟩ := by
  have hprint : print (.element head [] span) = head.tag ++ [' ', '/', '>'] := by
    simp [print]
  have heq : print (.element head [] span) ++ rest = head.tag ++ ' ' :: '/' :: '>' :: rest := by
    simp [hprint]
  rw [heq, readAll_of_pieceAt h.pieceAt_empty, placed, placedAll, hprint]
  rfl

/-- An element is read back if its children are. -/
theorem readAll_printed_element (h : head.Printable) (hne : children ≠ [])
    (hchildren : readAll declarations (⟨head, head.closer, offset, nodes⟩ :: stack) []
        ⟨offset + byteLength (head.tag ++ ['>']), printAll children ++ (head.closingTag ++ rest)⟩ =
      readAll declarations (⟨head, head.closer, offset, nodes⟩ :: stack)
        ((placedAll (offset + byteLength (head.tag ++ ['>'])) children).reverse ++ [])
        ⟨offset + byteLength (head.tag ++ ['>']) + byteLength (printAll children),
          head.closingTag ++ rest⟩) :
    readAll declarations stack nodes ⟨offset, print (.element head children span) ++ rest⟩ =
      readAll declarations stack (placed offset (.element head children span) :: nodes)
        ⟨offset + byteLength (print (.element head children span)), rest⟩ := by
  have hprint : print (.element head children span) =
      head.tag ++ '>' :: (printAll children ++ head.closingTag) := by
    simp [print, hne]
  have heq : print (.element head children span) ++ rest =
      head.tag ++ '>' :: (printAll children ++ (head.closingTag ++ rest)) := by
    simp [hprint]
  have hoffset : offset + byteLength (head.tag ++ ['>']) + byteLength (printAll children) +
      byteLength head.closingTag = offset + byteLength (print (.element head children span)) := by
    simp [hprint, Nat.add_assoc]
  rw [heq, readAll_of_pieceAt h.pieceAt_opening, readOn, hchildren,
    readAll_of_pieceAt ElementHead.pieceAt_closingTag, readOn, hoffset, placed, List.append_nil,
    List.reverse_reverse]

mutual

/-- A printed node is read back. -/
theorem readAll_print (declarations : Declarations) {stack : List OpenElement} {nodes : List Node}
    {offset : Nat} {rest : List Char}
    (hinline : ∀ waited ∈ awaited stack, waited.IsInline) : ∀ n : Node, n.Printable →
      (n.isText = true → StartsPiece declarations (awaited stack)
      ⟨offset + byteLength n.print, rest⟩) →
    readAll declarations stack nodes ⟨offset, n.print ++ rest⟩ =
      readAll declarations stack (n.placed offset :: nodes) ⟨offset + byteLength n.print, rest⟩
  | .text shown span, h, hrest => by
    rw [Printable] at h
    rw [print] at hrest
    exact readAll_printed_text h hinline (hrest rfl)
  | .comment content span, h, _ => by
    rw [Printable] at h
    rw [print, readAll_of_pieceAt (Directive.pieceAt_print h), placed, print]
    simp [readOn, Directive.node]
  | .raw content span, h, _ => by
    rw [Printable] at h
    rw [print, readAll_of_pieceAt (Directive.pieceAt_print h), placed, print]
    simp [readOn, Directive.node]
  | .element head children span, h, _ => by
    rw [Printable] at h
    obtain ⟨hhead, hchildren⟩ := h
    cases children with
    | nil => exact readAll_printed_empty hhead
    | cons first others =>
      refine readAll_printed_element hhead (List.cons_ne_nil first others) ?_
      refine readAll_printAll declarations (fun waited hw => ?_) (first :: others) hchildren
        (startsPiece_of_pieceAt ElementHead.pieceAt_closingTag)
      exact Option.some.inj hw ▸ hhead.isInline_closer

theorem readAll_printAll (declarations : Declarations) {stack : List OpenElement}
    {nodes : List Node} {offset : Nat} {rest : List Char}
    (hinline : ∀ waited ∈ awaited stack, waited.IsInline) :
    ∀ ns : List Node, AllPrintable ns →
    StartsPiece declarations (awaited stack)
      ⟨offset + byteLength (printAll ns), rest⟩ →
    readAll declarations stack nodes ⟨offset, printAll ns ++ rest⟩ =
      readAll declarations stack ((placedAll offset ns).reverse ++ nodes)
        ⟨offset + byteLength (printAll ns), rest⟩
  | [], _, _ => rfl
  | n :: ns, h, hrest => by
    rw [AllPrintable] at h
    obtain ⟨hn, hns, hapart⟩ := h
    rw [printAll, byteLength_append, ← Nat.add_assoc] at hrest
    have hnext : n.isText = true → StartsPiece declarations (awaited stack)
        ⟨offset + byteLength n.print, printAll ns ++ rest⟩ := by
      intro hisText
      cases ns with
      | nil => exact hrest
      | cons m others =>
        rw [printAll, List.append_assoc]
        exact startsPiece_print hns.1 (hapart hisText m rfl)
    rw [printAll, List.append_assoc, readAll_print declarations hinline n hn hnext,
      readAll_printAll declarations hinline ns hns hrest, placedAll, byteLength_append]
    simp [Nat.add_assoc]

end

end Node

namespace NodeTree

/-- The canonical form of a template. -/
def print (nodes : List Node) : String :=
  String.ofList (Node.printAll nodes)

/-- The canonical form of a tree reads as that tree. -/
theorem parse_print (declarations : Declarations) {nodes : List Node}
    (h : Node.AllPrintable nodes) :
    parse declarations (print nodes) =
      .ok ⟨Node.placedAll 0 nodes, Span.ofBounds 0 (byteLength (Node.printAll nodes))⟩ := by
  have hread : readAll declarations [] [] ⟨0, Node.printAll nodes ++ []⟩ =
      readAll declarations [] ((Node.placedAll 0 nodes).reverse ++ [])
        ⟨0 + byteLength (Node.printAll nodes), []⟩ :=
    Node.readAll_printAll declarations (by simp) nodes h rfl
  rw [List.append_nil, List.append_nil, readAll_nil, List.reverse_reverse] at hread
  unfold parse read print
  rw [String.toList_ofList, hread]
  rfl

namespace LookalikeTemplate

def boxHead : ElementHead :=
  ⟨"c", "Box", [("class", .quoted "'w > \\' 2'"), ("hidden", .present), ("n", .bare "3=\"")],
    true, "Box"⟩

def endHead : ElementHead :=
  ⟨"c", "End", [], true, "End"⟩

/-- Texts and contents that look like the markup around them. -/
def nodes : List Node :=
  [.text "a < b</i>" default,
    .element boxHead [.comment "<p:raw>" default, .text "<p:" default,
      .raw "</c:Box></p:rawer" default, .element endHead [] default] default]

theorem boxHead_printable : boxHead.Printable where
  isInline := rfl
  declaredName := rfl
  space_ne_nil := by decide
  space := List.all_eq_true.1 rfl
  typeStart := ⟨'B', rfl, rfl⟩
  typeName := List.all_eq_true.1 rfl
  noDirective := fun d => by cases d <;> decide
  bindings := by
    refine ⟨by simp only [Dictionary.Ordered]; decide, fun entry hentry => ?_⟩
    rcases List.mem_cons.1 hentry with rfl | hentry
    · have hbody : Unquoted '\'' ("w > \\' 2".toList) := by
        simp [Unquoted]
      exact ⟨by decide, List.all_eq_true.1 rfl, '\'', _, rfl, hbody, rfl⟩
    rcases List.mem_cons.1 hentry with rfl | hentry
    · exact ⟨by decide, List.all_eq_true.1 rfl, trivial⟩
    · rw [List.mem_singleton.1 hentry]
      have hstart : ∀ c ∈ "3=\"".toList.head?, isQuote c = false := by
        rintro c ⟨⟩
        rfl
      exact ⟨by decide, List.all_eq_true.1 rfl, by decide, hstart, List.all_eq_true.1 rfl⟩

theorem endHead_printable : endHead.Printable where
  isInline := rfl
  declaredName := rfl
  space_ne_nil := by decide
  space := List.all_eq_true.1 rfl
  typeStart := ⟨'E', rfl, rfl⟩
  typeName := List.all_eq_true.1 rfl
  noDirective := fun d => by cases d <;> decide
  bindings := ⟨.nil, nofun⟩

theorem nodes_printable : Node.AllPrintable nodes := by
  have hoperator : readsAsText [] "a < b</i>" = true := by decide +kernel
  have hnamespace : readsAsText [] "<p:" = true := by decide +kernel
  have hcomment : Directive.comment.AbsentFrom "<p:raw>".toList := by decide
  have hraw : Directive.raw.AbsentFrom "</c:Box></p:rawer".toList := by decide
  simp only [nodes, Node.AllPrintable, Node.Printable, Node.isText]
  exact ⟨standsAlone_of_readsAsText hoperator,
    ⟨⟨boxHead_printable, hcomment, ⟨standsAlone_of_readsAsText hnamespace,
      ⟨hraw, ⟨⟨endHead_printable, trivial⟩, trivial, nofun⟩, nofun⟩, by simp⟩, nofun⟩,
      trivial, nofun⟩, by simp⟩

end LookalikeTemplate

theorem parse_print_lookalikeTemplate : Node.AllPrintable LookalikeTemplate.nodes ∧
    parse [] (print LookalikeTemplate.nodes) =
      .ok ⟨Node.placedAll 0 LookalikeTemplate.nodes,
        Span.ofBounds 0 (byteLength (Node.printAll LookalikeTemplate.nodes))⟩ :=
  ⟨LookalikeTemplate.nodes_printable, parse_print [] LookalikeTemplate.nodes_printable⟩

end NodeTree

end PageEngine
