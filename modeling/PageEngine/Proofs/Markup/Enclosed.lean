import PageEngine.Proofs.Markup.Concatenation

/-! Templates between two tags. What stands between an opening tag and its closing tag is read as
it is read alone, only further on, unless one of its texts closes the element. -/

namespace PageEngine

open Text (byteLength)

namespace Node

/-- The node without the places of its parts. -/
def unplaced : Node → Node :=
  mapSpans fun _ => ⟨0, 0⟩

/-- The same texts stand in nodes that are the same up to their places. -/
theorem exists_text_of_unplaced {nodes children : List Node} {shown : String} {span : Span}
    (h : nodes.map unplaced = children.map unplaced) (hmem : .text shown span ∈ nodes) :
    ∃ span, .text shown span ∈ children := by
  have hmem : unplaced (.text shown span) ∈ children.map unplaced := h ▸ List.mem_map_of_mem hmem
  obtain ⟨n, hn, heq⟩ := List.mem_map.1 hmem
  cases n with
  | text shown' span' =>
    cases heq
    exact ⟨span', hn⟩
  | comment => cases heq
  | raw => cases heq
  | element => cases heq

end Node

namespace NodeTree

open Cursor (ClosedNowhere Plain)
open Node (unplaced)

variable {declarations : Declarations} {closer : Closer} {name : List Char}

/-- The same nodes are read further on, but for their places. -/
theorem exists_readAll_unplaced {content : List Char} {children : List Node}
    (h : readAll declarations [] [] ⟨0, content⟩ = .ok children) (offset : Nat) :
    ∃ nodes, readAll declarations [] [] ⟨offset, content⟩ = .ok nodes ∧
      nodes.map unplaced = children.map unplaced := by
  have hspans : Span.AgreeMoved (fun _ => ⟨0, 0⟩) (fun _ => ⟨0, 0⟩) offset (byteLength content) :=
    fun _ _ _ _ => rfl
  have hmoved : (readAll declarations [] [] ((⟨0, content⟩ : Cursor).moved offset)).map
      (List.map unplaced) =
        movedBy offset (List.map unplaced) (readAll declarations [] [] ⟨0, content⟩) :=
    readAll_moved hspans (Nat.zero_add _).le .nil (fun _ he => nomatch he) rfl
  rw [h, Cursor.moved, Nat.zero_add] at hmoved
  exact exists_of_map_ok hmoved

/-- Before its closing tag, text that closes nothing is one text of the element. -/
theorem readAll_text_closed {head : ElementHead} {text : List Char} {gathered : List Node}
    {offset start : Nat} (hplain : Plain text) (hinner : closer.IsInner)
    (hnowhere : ClosedNowhere closer text) (hname : closer.Matches name) :
    ∃ span, readAll declarations [⟨head, closer, offset, []⟩] gathered
        ⟨start, text ++ '<' :: '/' :: (name ++ ['>'])⟩ =
      .ok [.element head (addText start text gathered).reverse span] := by
  have hbreaks : Breaks ('<' :: '/' :: (name ++ ['>'])) := fun _ hx => (Option.some.inj hx).symm
  have hnone : Spaces [] := fun _ hc => (List.not_mem_nil hc).elim
  have hclosing : Cursor.pieceAt declarations (some closer)
      ⟨start + byteLength text, '<' :: '/' :: (name ++ ([] ++ ['>'])) ++ []⟩ = _ :=
    hname.pieceAt_closingTag hnone _ []
  rw [List.append_nil, List.nil_append] at hclosing
  have hscan : Cursor.scan declarations (some closer) start
      (text ++ '<' :: '/' :: (name ++ ['>'])) = _ :=
    Cursor.scan_append declarations start (fun s hs _ =>
      ⟨.inr hbreaks, (hnowhere.of_suffix hs).closesNothing hinner (.inr hbreaks)⟩) hplain
  rw [scan_of_pieceAt hclosing, List.append_nil] at hscan
  let stop := start + byteLength text + byteLength ('<' :: '/' :: (name ++ ['>']))
  refine ⟨Span.ofBounds offset stop, ?_⟩
  rw [readAll_of_scan hscan]
  exact readAll_nil _ _ _

/-- A template between an opening tag and the closing tag it waits for is one element with the
nodes of the template. -/
theorem exists_readAll_enclosed {head : ElementHead} {tag content : List Char}
    {children : List Node}
    (hopening : ∀ rest, Cursor.pieceAt declarations none ⟨0, tag ++ '>' :: rest⟩ =
      .ok (some (.opening head closer ⟨byteLength (tag ++ ['>']), rest⟩)))
    (hinner : closer.IsInner) (hname : closer.Matches name)
    (h : readAll declarations [] [] ⟨0, content⟩ = .ok children)
    (htexts : ∀ shown span, .text shown span ∈ children → ClosedNowhere closer shown.toList) :
    ∃ nodes span, nodes.map unplaced = children.map unplaced ∧
      readAll declarations [] []
          ⟨0, tag ++ '>' :: (content ++ '<' :: '/' :: (name ++ ['>']))⟩ =
        .ok [.element head nodes span] := by
  let closing := '<' :: '/' :: (name ++ ['>'])
  have hbreaks : Breaks closing := fun _ hx => (Option.some.inj hx).symm
  obtain ⟨nodes, hnodes, hsame⟩ := exists_readAll_unplaced h (byteLength (tag ++ ['>']))
  have htexts (shown : String) (span : Span) (hmem : .text shown span ∈ nodes) :
      ClosedNowhere closer shown.toList := by
    obtain ⟨span, hmem⟩ := Node.exists_text_of_unplaced hsame hmem
    exact htexts shown span hmem
  obtain ⟨gathered, start, taken, text, -, hplain, rfl, hread⟩ :=
    exists_readAll_followedBy [⟨head, closer, 0, []⟩] hnodes
      (.inr hbreaks : Parted content closing) (List.forall_mem_singleton.2 hinner)
      (fun waited hwaited => Option.some.inj hwaited ▸ htexts)
  have hnowhere : ClosedNowhere closer text := by
    by_cases hempty : text = []
    · exact hempty ▸ closedNowhere_nil closer
    · have hshown := htexts (String.ofList text) (Span.ofBounds start (start + byteLength text))
        (by simp [addText, hempty])
      rwa [String.toList_ofList] at hshown
  obtain ⟨span, hclosed⟩ := readAll_text_closed hplain hinner hnowhere hname
  refine ⟨_, span, hsame, ?_⟩
  rw [readAll_of_pieceAt (hopening _)]
  exact hread.trans hclosed

theorem exists_parse_enclosed {head : ElementHead} {tag : List Char} {content text : String}
    {tree : NodeTree}
    (hopening : ∀ rest, Cursor.pieceAt declarations none ⟨0, tag ++ '>' :: rest⟩ =
      .ok (some (.opening head closer ⟨byteLength (tag ++ ['>']), rest⟩)))
    (hinner : closer.IsInner) (hname : closer.Matches name)
    (htext : text.toList = tag ++ '>' :: (content.toList ++ '<' :: '/' :: (name ++ ['>'])))
    (h : parse declarations content = .ok tree)
    (htexts : ∀ shown span, .text shown span ∈ tree.children →
      ClosedNowhere closer shown.toList) :
    ∃ nodes span whole, nodes.map unplaced = tree.children.map unplaced ∧
      parse declarations text = .ok ⟨[.element head nodes span], whole⟩ := by
  obtain ⟨nodes, span, hnodes, hall⟩ :=
    exists_readAll_enclosed hopening hinner hname (readAll_of_parse h).1 htexts
  refine ⟨nodes, span, Span.ofBounds 0 (byteLength text.toList), hnodes, ?_⟩
  rw [parse_eq, htext, hall]

end NodeTree

end PageEngine
