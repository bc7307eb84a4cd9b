import PageEngine.Proofs.Markup.Followed
import PageEngine.Proofs.Markup.Moved

/-! Templates one behind the other. Reading a template leaves the nodes before its last text and
that text, which is plain. When another template follows, its reading goes on from there: its first
text is added to the last one, and everything else is read as it is read alone. -/

namespace PageEngine

open Text (byteLength)

namespace NodeTree

variable {declarations : Declarations} {stack stack' : List OpenElement}
variable {base nodes nodes' children : List Node} {c : Cursor} {piece : Piece}

/-! ### Nodes before all others -/

/-- The same open elements and nodes, behind the nodes of `base`. -/
inductive OnBase (base : List Node) :
    List OpenElement → List Node → List OpenElement → List Node → Prop
  | top (nodes : List Node) : OnBase base [] nodes [] (nodes ++ base)
  | inside {head : ElementHead} {closer : Closer} {offset : Nat} {before before' : List Node}
    {outer outer' : List OpenElement} (nodes : List Node)
    (houter : OnBase base outer before outer' before') :
    OnBase base (⟨head, closer, offset, before⟩ :: outer) nodes
      (⟨head, closer, offset, before'⟩ :: outer') nodes

namespace OnBase

theorem awaited_eq (h : OnBase base stack nodes stack' nodes') :
    awaited stack' = awaited stack := by
  cases h <;> rfl

theorem cons (h : OnBase base stack nodes stack' nodes') (n : Node) :
    OnBase base stack (n :: nodes) stack' (n :: nodes') := by
  cases h with
  | top => exact .top (n :: nodes)
  | inside _ houter => exact .inside (n :: nodes) houter

theorem addText (h : OnBase base stack nodes stack' nodes') (start : Nat) (text : List Char) :
    OnBase base stack (addText start text nodes) stack' (NodeTree.addText start text nodes') := by
  unfold NodeTree.addText
  split
  · exact h
  · exact h.cons _

end OnBase

theorem readOn_onBase {start : Nat} (h : OnBase base stack nodes stack' nodes')
    (hlater : ∀ {after stack stack' nodes nodes'}, piece.after? = some after →
      OnBase base stack nodes stack' nodes' →
      readAll declarations stack' nodes' after =
        (readAll declarations stack nodes after).map (base.reverse ++ ·)) :
    readOn declarations stack' nodes' start piece =
      (readOn declarations stack nodes start piece).map (base.reverse ++ ·) := by
  cases piece with
  | finish =>
    cases h with
    | top => exact congrArg Except.ok List.reverse_append
    | inside => rfl
  | closing after =>
    cases h with
    | top => exact congrArg Except.ok List.reverse_append
    | inside _ houter => exact hlater rfl (houter.cons _)
  | leaf node after => exact hlater rfl (h.cons node)
  | empty head after => exact hlater rfl (h.cons _)
  | opening head closer after => exact hlater rfl (.inside [] h)

/-- Nodes before all others are before all others in what is read. -/
theorem readAll_onBase (h : OnBase base stack nodes stack' nodes') :
    readAll declarations stack' nodes' c =
      (readAll declarations stack nodes c).map (base.reverse ++ ·) := by
  induction hlength : c.rest.length using Nat.strongRecOn
      generalizing stack stack' nodes nodes' c with
  | ind _ ih =>
    cases hscan : Cursor.scan declarations (awaited stack) c.offset c.rest with
    | mk text result =>
      rw [readAll_of_scan hscan, readAll_of_scan (h.awaited_eq ▸ hscan)]
      cases result with
      | error fault => rfl
      | ok piece =>
        refine readOn_onBase (h.addText c.offset text) fun hafter hbase => ?_
        exact ih _ (hlength ▸ Cursor.length_lt_of_scan hscan hafter) hbase rfl

theorem readOn_base (base : List Node) (start : Nat) (piece : Piece) :
    readOn declarations [] base start piece =
      (readOn declarations [] [] start piece).map (base.reverse ++ ·) :=
  readOn_onBase (.top []) fun _ => readAll_onBase

/-! ### What a template leaves -/

open Cursor (ClosedNowhere Plain)

theorem closedNowhere_nil (waited : Closer) : ClosedNowhere waited [] :=
  fun _ hds => absurd (List.suffix_nil.1 hds) (List.cons_ne_nil _ _)

/-- Text before a piece is a node of the tree. -/
theorem closedNowhere_of_readOn {waited : Closer} {text : List Char} {offset start : Nat}
    (h : readOn declarations [] (addText offset text nodes) start piece = .ok children)
    (htexts : ∀ shown span, Node.text shown span ∈ children → ClosedNowhere waited shown.toList) :
    ClosedNowhere waited text := by
  by_cases hempty : text = []
  · exact hempty ▸ closedNowhere_nil waited
  · rw [readOn_base] at h
    obtain ⟨others, -, rfl⟩ := exists_of_map_ok h
    have hmem : Node.text (String.ofList text) (Span.ofBounds offset (offset + byteLength text)) ∈
        (addText offset text nodes).reverse ++ others := by
      simp [addText, hempty]
    have hnowhere := htexts _ _ hmem
    rwa [String.toList_ofList] at hnowhere

/-- Before another text, under other open elements, a template is read as it is read alone; what
is left is its last text and what was gathered before that. -/
theorem exists_readAll_followedBy (bottom : List OpenElement) {tail : List Char}
    (h : readAll declarations stack nodes c = .ok children) (hparted : Parted c.rest tail)
    (hinner : ∀ e ∈ stack ++ bottom, e.closer.IsInner)
    (htexts : ∀ waited ∈ awaited bottom, ∀ shown span, Node.text shown span ∈ children →
      ClosedNowhere waited shown.toList) :
    ∃ gathered start taken text, c.Reads taken ⟨start, text⟩ ∧ Plain text ∧
      children = (addText start text gathered).reverse ∧
      readAll declarations (stack ++ bottom) nodes (c.followedBy tail) =
        readAll declarations bottom gathered ⟨start, text ++ tail⟩ := by
  induction hlength : c.rest.length using Nat.strongRecOn generalizing stack nodes c with
  | ind _ ih =>
    cases hscan : Cursor.scan declarations (awaited stack) c.offset c.rest with
    | mk text result =>
    rw [readAll_of_scan hscan] at h
    cases result with
    | error fault => cases h
    | ok piece =>
    by_cases hpiece : piece = .finish
    · subst hpiece
      cases stack with
      | cons e outer => cases h
      | nil =>
        obtain ⟨htext, hplain⟩ := Cursor.plain_of_scan hscan
        cases h
        refine ⟨nodes, c.offset, [], text, ⟨htext, rfl⟩, htext ▸ hplain, rfl, ?_⟩
        rw [Cursor.followedBy, htext]
        rfl
    · obtain ⟨d, hd, hfrom⟩ := Cursor.exists_of_scan hscan
      have hfollowed : Cursor.scan declarations (awaited (stack ++ bottom))
          (c.followedBy tail).offset (c.followedBy tail).rest =
            (text, .ok (piece.followedBy tail)) := by
        cases stack with
        | cons e outer =>
          refine Cursor.scan_followedBy hparted ?_ hpiece hscan
          rintro _ ⟨⟩
          exact hinner e List.mem_cons_self
        | nil =>
          cases bottom with
          | nil => exact Cursor.scan_followedBy hparted (fun _ hnone => nomatch hnone) hpiece hscan
          | cons e outer =>
            have hwaited := hinner e List.mem_cons_self
            have hnowhere := closedNowhere_of_readOn h (htexts e.closer rfl)
            refine Cursor.scan_followedBy hparted ?_ hpiece
              (Cursor.scan_awaiting hwaited hnowhere hscan)
            rintro _ ⟨⟩
            exact hwaited
      rw [readAll_of_scan hfollowed]
      have hlater {after : Cursor} {stack : List OpenElement} {nodes : List Node}
          (hafter : piece.after? = some after) (hinner : ∀ e ∈ stack ++ bottom, e.closer.IsInner)
          (h : readAll declarations stack nodes after = .ok children) :
          ∃ gathered start taken text, c.Reads taken ⟨start, text⟩ ∧ Plain text ∧
            children = (addText start text gathered).reverse ∧
            readAll declarations (stack ++ bottom) nodes (after.followedBy tail) =
              readAll declarations bottom gathered ⟨start, text ++ tail⟩ := by
        obtain ⟨taken, hread⟩ := hfrom.exists_reads hafter
        have hall : c.Reads _ after := Cursor.Reads.trans hd hread
        obtain ⟨gathered, start, rest, text, hrest, hplain, hchildren, heq⟩ :=
          ih _ (hlength ▸ Cursor.length_lt_of_scan hscan hafter) h (hparted.of_reads hall) hinner rfl
        exact ⟨gathered, start, _, text, hall.trans hrest, hplain, hchildren, heq⟩
      cases piece with
      | finish => exact absurd rfl hpiece
      | closing after =>
        cases stack with
        | nil =>
          obtain ⟨_, _, _, hnone, -⟩ := hfrom
          cases hnone
        | cons e outer =>
          exact hlater rfl (fun e he => hinner e (List.mem_cons_of_mem _ he)) h
      | leaf node after => exact hlater rfl hinner h
      | empty head after => exact hlater rfl hinner h
      | opening head closer after =>
        have hcloser : closer.IsInner := Cursor.awaitsInner_of_scan hscan
        refine hlater rfl (fun e he => ?_) h
        rcases List.mem_cons.1 he with rfl | he
        · exact hcloser
        · exact hinner e he

/-- Where plain text was left, the text that is read next is added to it. -/
theorem exists_readAll_text {text tail : List Char} (hparted : Parted text tail)
    (hplain : Plain text) (gathered : List Node) (start : Nat) :
    ∃ later rest, later <+: tail ∧
      readAll declarations [] gathered ⟨start, text ++ tail⟩ =
        Except.map ((addText start (text ++ later) gathered).reverse ++ ·) rest ∧
      readAll declarations [] [] ⟨start + byteLength text, tail⟩ =
        Except.map ((addText (start + byteLength text) later []).reverse ++ ·) rest := by
  have hdecided (s : List Char) (hs : s <:+ text) (hne : s ≠ []) :
      Decided s tail ∧ Cursor.ClosesNothing none none tail s := by
    obtain ⟨before, rfl⟩ := hs
    exact ⟨hparted.of_append.decided hne, fun _ _ _ _ => rfl⟩
  cases hscan : Cursor.scan declarations none (start + byteLength text) tail with
  | mk later result =>
    obtain ⟨behind, hbehind, -⟩ := Cursor.breaks_of_scan hscan
    have hall := Cursor.scan_append declarations start hdecided hplain
    rw [hscan] at hall
    refine ⟨later, result.bind (readOn declarations [] [] (start + byteLength (text ++ later))),
      ⟨behind, hbehind.symm⟩, ?_⟩
    rw [readAll_of_scan hall, readAll_of_scan hscan, Text.byteLength_append, ← Nat.add_assoc]
    cases result with
    | error fault => exact ⟨rfl, rfl⟩
    | ok piece => exact ⟨readOn_base _ _ _, readOn_base _ _ _⟩

end NodeTree

/-! ### Joined trees -/

/-- The span some bytes further on. -/
def Span.shifted (n : Nat) (s : Span) : Span :=
  ⟨s.start + n, s.length⟩

theorem Span.agreeMoved_shifted {n limit : Nat} (hmax : limit + n ≤ maxOffset) :
    AgreeMoved id (shifted n) n limit := by
  intro start stop hle hlimit
  rw [ofBounds_eq (by omega) (by omega), ofBounds_eq (by omega) (by omega), shifted,
    Nat.add_sub_add_right]
  rfl

namespace Node

mutual

theorem mapSpans_id : (n : Node) → mapSpans id n = n
  | .text _ _ => rfl
  | .comment _ _ => rfl
  | .raw _ _ => rfl
  | .element head children span => by rw [mapSpans, mapSpansAll_id children]; rfl

theorem mapSpansAll_id : (nodes : List Node) → mapSpansAll id nodes = nodes
  | [] => rfl
  | n :: ns => by rw [mapSpansAll, mapSpans_id n, mapSpansAll_id ns]

end

/-- Two sequences of nodes one behind the other. A text that ends the first and one that begins
the second are one text. -/
def join (first later : List Node) : List Node :=
  match first.getLast?, later with
  | some (.text shown span), .text shown' span' :: rest =>
    first.dropLast ++ .text (shown ++ shown') (Span.ofBounds span.start span'.stop) :: rest
  | _, _ => first ++ later

theorem join_texts (first rest : List Node) (shown shown' : String) (span span' : Span) :
    join (first ++ [.text shown span]) (.text shown' span' :: rest) =
      first ++ .text (shown ++ shown') (Span.ofBounds span.start span'.stop) :: rest := by
  simp [join]

theorem join_of_textsApart {first later : List Node} (h : TextsApart (first ++ later)) :
    join first later = first ++ later := by
  have hapart := (List.isChain_append.1 h).2.2
  unfold join
  split
  · rename_i hlast
    cases hapart _ hlast _ rfl rfl
  · rfl

end Node

namespace NodeTree

open Node (join mapSpans)

/-- Of the last text of one template and the first of another, if both are there, one text is
made. -/
theorem join_addText {gathered rest : List Node} {start : Nat} {text later : List Char}
    (hmax : start + byteLength (text ++ later) ≤ maxOffset)
    (hapart : Node.TextsApart ((addText start (text ++ later) gathered).reverse ++ rest)) :
    join (addText start text gathered).reverse
        ((addText (start + byteLength text) later []).reverse ++ rest) =
      (addText start (text ++ later) gathered).reverse ++ rest := by
  have hjoined {xs ys : List Node}
      (heq : xs ++ ys = (addText start (text ++ later) gathered).reverse ++ rest) :
      join xs ys = (addText start (text ++ later) gathered).reverse ++ rest := by
    rw [← heq] at hapart ⊢
    exact Node.join_of_textsApart hapart
  have hnode {start : Nat} {text : List Char} {nodes : List Node} (hne : text ≠ []) :
      addText start text nodes = .text (String.ofList text)
        (Span.ofBounds start (start + byteLength text)) :: nodes :=
    if_neg (by simpa using hne)
  by_cases htext : text = []
  · subst htext
    by_cases hlater : later = []
    · subst hlater
      exact hjoined rfl
    · refine hjoined ?_
      rw [List.nil_append, hnode hlater, hnode hlater]
      simp [addText]
  · by_cases hlater : later = []
    · subst hlater
      refine hjoined ?_
      rw [List.append_nil]
      rfl
    · have hall : text ++ later ≠ [] := fun hnil => htext (List.append_eq_nil_iff.1 hnil).1
      rw [Text.byteLength_append, ← Nat.add_assoc] at hmax
      have hstart : (Span.ofBounds start (start + byteLength text)).start = start := by
        rw [Span.ofBounds_eq (by omega) (by omega)]
      have hstop := Span.stop_ofBounds (Nat.le_add_right _ (byteLength later)) hmax
      rw [hnode htext, hnode hlater, hnode hall, List.reverse_cons, List.reverse_cons,
        List.append_assoc]
      refine (Node.join_texts _ rest _ _ _ _).trans ?_
      rw [hstart, hstop, ← String.ofList_append, Text.byteLength_append, ← Nat.add_assoc,
        List.reverse_cons, List.append_assoc]
      rfl

/-- What is read of a template that follows `n` bytes is what is read of it alone, further on. -/
theorem readAll_shifted {n : Nat} {source : List Char} (hmax : byteLength source + n ≤ maxOffset) :
    readAll declarations [] [] ⟨n, source⟩ =
      movedBy n (List.map (mapSpans (.shifted n))) (readAll declarations [] [] ⟨0, source⟩) := by
  have hlimit : (⟨0, source⟩ : Cursor).offset + byteLength source ≤ byteLength source :=
    (Nat.zero_add _).le
  have hmoved : (readAll declarations [] [] (Cursor.moved n ⟨0, source⟩)).map
      (List.map (mapSpans id)) = movedBy n (List.map (mapSpans (.shifted n)))
        (readAll declarations [] [] ⟨0, source⟩) :=
    readAll_moved (Span.agreeMoved_shifted hmax) hlimit .nil (fun _ he => nomatch he) rfl
  have hid : List.map (mapSpans id) = id := funext fun nodes => by
    rw [← Node.mapSpansAll_eq, Node.mapSpansAll_id]
    rfl
  rw [hid, Except.map_id, Cursor.moved, Nat.zero_add] at hmoved
  exact hmoved

/-- Reading templates is local. Where a template is empty or ends with a tag, what follows it is
read as it is read alone: the nodes are joined, with the later ones further on, and an error of the
template that follows is found further on. -/
theorem parse_concat {first later : String} {tree : NodeTree}
    (hlength : byteLength first.toList + byteLength later.toList < 2 ^ 32)
    (hend : first = "" ∨ first.toList.getLast? = some '>')
    (h : parse declarations first = .ok tree) :
    parse declarations (first ++ later) =
      match parse declarations later with
      | .ok tree' =>
        let children := tree'.children.map (mapSpans (.shifted (byteLength first.toList)))
        .ok ⟨join tree.children children,
          Span.ofBounds 0 (byteLength first.toList + byteLength later.toList)⟩
      | .error e =>
        .error ⟨e.kind, e.offset + byteLength first.toList, e.sourceKind, first ++ later⟩ := by
  have hmax : byteLength first.toList + byteLength later.toList ≤ maxOffset :=
    Nat.le_of_lt_succ hlength
  have hparted : Parted first.toList later.toList := by
    refine .inl fun x hx => ?_
    rcases hend with rfl | hlast
    · cases hx
    · exact Option.some.inj (hx.symm.trans hlast)
  have hfirst : readAll declarations [] [] ⟨0, first.toList⟩ = .ok tree.children := by
    rw [parse_eq] at h
    split at h
    · rename_i hread
      cases h
      exact hread
    · cases h
  obtain ⟨gathered, start, taken, text, hread, hplain, hchildren, hleft⟩ :=
    exists_readAll_followedBy [] hfirst hparted (List.forall_mem_nil _) (by rintro _ ⟨⟩)
  have hstart : start + byteLength text = byteLength first.toList := by
    simpa using hread.total
  obtain ⟨added, rest, ⟨behind, hbehind⟩, hall, hrest⟩ :=
    exists_readAll_text (hparted.of_reads hread) hplain gathered start
  rw [hstart, readAll_shifted (by omega)] at hrest
  have htotal : (first ++ later).toList = first.toList ++ later.toList := String.toList_append
  have hboth : readAll declarations [] [] ⟨0, (first ++ later).toList⟩ =
      rest.map ((addText start (text ++ added) gathered).reverse ++ ·) := by
    rw [htotal, ← hall]
    exact hleft
  have hlengths : byteLength (first ++ later).toList =
      byteLength first.toList + byteLength later.toList := by
    rw [htotal, Text.byteLength_append]
  rw [parse_eq, parse_eq later]
  cases hlater : readAll declarations [] [] ⟨0, later.toList⟩ with
  | error fault =>
    rw [hlater] at hrest
    cases rest with
    | ok others => cases hrest
    | error fault' =>
      obtain rfl : fault.moved (byteLength first.toList) = fault' := Except.error.inj hrest
      have hoffset : min (fault.offset + byteLength first.toList)
          (byteLength first.toList + byteLength later.toList) =
            min fault.offset (byteLength later.toList) + byteLength first.toList := by omega
      rw [hboth]
      refine congrArg Except.error ?_
      rw [FormatError.ofFault, FormatError.ofFault, Fault.moved, hlengths, hoffset]
  | ok children =>
    rw [hlater] at hrest
    obtain ⟨others, rfl, hothers⟩ := exists_of_map_ok hrest.symm
    have hapart := (spelled_of_readAll hboth (.top rfl) (.refl _) (by rintro _ ⟨⟩)).textsApart
    have hlimit : start + byteLength (text ++ added) ≤ maxOffset := by
      rw [← hbehind, Text.byteLength_append] at hmax
      rw [Text.byteLength_append]
      omega
    have hjoin := join_addText hlimit hapart
    rw [hstart, hothers, ← hchildren] at hjoin
    rw [hboth]
    refine congrArg Except.ok ?_
    rw [hlengths]
    exact congrArg (NodeTree.mk · _) hjoin.symm

namespace BoldTemplate

/-- A box and a text that ends with a tag of the page. -/
def first : String :=
  "<c:Box/>a <b>"

def later : String :=
  "c</b> <c:End/>"

end BoldTemplate

theorem parse_concat_boldTemplate :
    byteLength BoldTemplate.first.toList + byteLength BoldTemplate.later.toList < 2 ^ 32 ∧
    BoldTemplate.first.toList.getLast? = some '>' ∧
    ∃ tree tree', parse [] BoldTemplate.first = .ok tree ∧ parse [] BoldTemplate.later = .ok tree' ∧
      parse [] (BoldTemplate.first ++ BoldTemplate.later) =
        .ok ⟨join tree.children (tree'.children.map
          (mapSpans (.shifted (byteLength BoldTemplate.first.toList)))), Span.ofBounds 0
          (byteLength BoldTemplate.first.toList + byteLength BoldTemplate.later.toList)⟩ := by
  have hlength : byteLength BoldTemplate.first.toList + byteLength BoldTemplate.later.toList <
      2 ^ 32 := by decide +kernel
  have hend : BoldTemplate.first.toList.getLast? = some '>' := by decide +kernel
  have hread (source : String) (h : (parse [] source).isOk = true) :
      ∃ tree, parse [] source = .ok tree := by
    cases hparse : parse [] source with
    | error e =>
      rw [hparse] at h
      cases h
    | ok tree => exact ⟨tree, rfl⟩
  obtain ⟨tree, htree⟩ := hread BoldTemplate.first (by decide +kernel)
  obtain ⟨tree', htree'⟩ := hread BoldTemplate.later (by decide +kernel)
  have hboth := parse_concat hlength (.inr hend) htree
  rw [htree'] at hboth
  exact ⟨hlength, hend, tree, tree', htree, htree', hboth⟩

end NodeTree

end PageEngine
