import Mathlib.Algebra.Group.Nat.Defs
import Mathlib.Data.List.Chain
import PageEngine.Proofs.Markup.Reading

/-! Reading a template loses nothing. While a template is read, what was read so far is spelled
by the nodes gathered in the open elements; at its end the tree spells the whole source. Spans
are then places in the source: siblings tile what stands between the tags of their parent, and
what a node keeps can be cut out of the source by its span. -/

namespace PageEngine

open Text (byteLength)

namespace Node

/-- The spans of siblings cover a region in order, and none is empty. -/
def Tiles (start stop : Nat) : List Node → Prop
  | [] => start = stop
  | n :: rest => n.span.start = start ∧ start < n.span.stop ∧ Tiles n.span.stop stop rest

/-- Of two neighbours at most one is text. -/
def TextsApart (nodes : List Node) : Prop :=
  nodes.IsChain fun m n => m.isText = true → n.isText = false

/-- A node says what its span holds in the source. -/
def Mirrors (source : String) : Node → Prop
  | .text shown span => span.slice source = some shown
  | .comment content span => ∃ cs, span.slice source = some cs ∧ content.toList <:+: cs.toList
  | .raw content span => ∃ cs, span.slice source = some cs ∧ content.toList <:+: cs.toList
  | .element head children span => TextsApart children ∧ ∃ word tag, TagText head word tag ∧
    (span.slice source = some (String.ofList (tag ++ ['/', '>'])) ∧ children = [] ∨
      ∃ inner name blanks, span.slice source = some (String.ofList
          (tag ++ '>' :: (inner ++ '<' :: '/' :: (name ++ (blanks ++ ['>']))))) ∧
        head.ClosesWith word name ∧ Spaces blanks ∧
        Tiles (span.start + byteLength (tag ++ ['>']))
          (span.start + byteLength (tag ++ '>' :: inner)) children)

/-! ### What is spelled -/

variable {offset : Nat} {cs ds : List Char} {n : Node} {nodes others : List Node}

theorem SpelledBy.ne_nil (h : n.SpelledBy offset cs) : cs ≠ [] := by
  cases n with
  | text => exact h.1
  | comment => exact h.1
  | raw => exact h.1
  | element =>
    obtain ⟨-, word, tag, -, ⟨rfl, -⟩ | ⟨inner, name, blanks, rfl, -⟩⟩ := h <;> simp

theorem SpelledBy.span_eq (h : n.SpelledBy offset cs) :
    n.span = Span.ofBounds offset (offset + byteLength cs) := by
  cases n with
  | text => exact h.2.2
  | comment => exact h.2.2
  | raw => exact h.2.2
  | element => exact h.1

theorem SpelledBy.start_stop (h : n.SpelledBy offset cs)
    (hmax : offset + byteLength cs ≤ maxOffset) :
    n.span.start = offset ∧ n.span.stop = offset + byteLength cs := by
  have hle : offset ≤ offset + byteLength cs := Nat.le_add_right _ _
  rw [h.span_eq]
  exact ⟨by rw [Span.ofBounds_eq hle hmax], Span.stop_ofBounds hle hmax⟩

theorem AllSpelledBy.concat (h : AllSpelledBy offset cs nodes)
    (hn : n.SpelledBy (offset + byteLength cs) ds)
    (htext : n.isText = true → ∀ m ∈ nodes.getLast?, m.isText = false) :
    AllSpelledBy offset (cs ++ ds) (nodes ++ [n]) := by
  induction nodes generalizing offset cs with
  | nil =>
    cases h
    exact ⟨ds, [], by simp, hn, rfl, fun _ _ hm => nomatch hm⟩
  | cons m rest ih =>
    obtain ⟨first, others, rfl, hfirst, hrest, hnext⟩ := h
    rw [Text.byteLength_append, ← Nat.add_assoc] at hn
    refine ⟨first, others ++ ds, by simp, hfirst, ih hrest hn fun hisText last hlast =>
      htext hisText last ?_, fun hisText next hhead => ?_⟩
    · cases rest with
      | nil => cases hlast
      | cons => rwa [List.getLast?_cons_cons]
    · cases rest with
      | nil =>
        cases hhead
        cases hn' : n.isText with
        | false => rfl
        | true => exact absurd hisText (by simp [htext hn' m rfl])
      | cons => exact hnext hisText next hhead

theorem AllSpelledBy.exists_of_mem (h : AllSpelledBy offset cs nodes) (hn : n ∈ nodes) :
    ∃ before inner after, cs = before ++ (inner ++ after) ∧
      n.SpelledBy (offset + byteLength before) inner := by
  induction nodes generalizing offset cs with
  | nil => cases hn
  | cons m rest ih =>
    obtain ⟨first, others, rfl, hfirst, hrest, -⟩ := h
    rcases List.mem_cons.1 hn with rfl | hn
    · exact ⟨[], first, others, rfl, hfirst⟩
    · obtain ⟨before, inner, after, rfl, hspelled⟩ := ih hrest hn
      refine ⟨first ++ before, inner, after, by simp, ?_⟩
      rwa [Text.byteLength_append, ← Nat.add_assoc]

theorem AllSpelledBy.textsApart (h : AllSpelledBy offset cs nodes) : TextsApart nodes := by
  induction nodes generalizing offset cs with
  | nil => exact .nil
  | cons m rest ih =>
    obtain ⟨first, others, rfl, -, hrest, hnext⟩ := h
    exact List.isChain_cons.2 ⟨fun n hn hisText => hnext hisText n hn, ih hrest⟩

theorem AllSpelledBy.tiles (h : AllSpelledBy offset cs nodes)
    (hmax : offset + byteLength cs ≤ maxOffset) :
    Tiles offset (offset + byteLength cs) nodes := by
  induction nodes generalizing offset cs with
  | nil =>
    cases h
    rfl
  | cons n rest ih =>
    obtain ⟨first, others, rfl, hfirst, hrest, -⟩ := h
    rw [Text.byteLength_append, ← Nat.add_assoc] at hmax ⊢
    have hpos := Text.byteLength_pos hfirst.ne_nil
    obtain ⟨hstart, hstop⟩ := hfirst.start_stop (by omega)
    refine ⟨hstart, by omega, ?_⟩
    rw [hstop]
    exact ih hrest hmax

end Node

/-! ### Open elements -/

open Node (AllSpelledBy SpelledBy)

/-- What was read so far: the nodes before each open element, its opening tag, and the nodes
gathered in the innermost one. -/
inductive Gathered : List OpenElement → List Node → List Char → Prop
  | top {nodes : List Node} {cs : List Char} (h : AllSpelledBy 0 cs nodes.reverse) :
    Gathered [] nodes cs
  | inside {e : OpenElement} {outer : List OpenElement} {nodes : List Node}
    {before word tag inner : List Char} (houter : Gathered outer e.before before)
    (hoffset : e.offset = byteLength before) (htag : TagText e.head word tag)
    (hcloser : ∀ name, e.closer.Matches name → e.head.ClosesWith word name)
    (h : AllSpelledBy (byteLength before + byteLength (tag ++ ['>'])) inner nodes.reverse) :
    Gathered (e :: outer) nodes (before ++ (tag ++ ['>'] ++ inner))

namespace Gathered

variable {stack : List OpenElement} {nodes : List Node} {cs ds : List Char} {n : Node}

theorem concat (h : Gathered stack nodes cs) (hn : n.SpelledBy (byteLength cs) ds)
    (htext : n.isText = true → ∀ m ∈ nodes.head?, m.isText = false) :
    Gathered stack (n :: nodes) (cs ++ ds) := by
  rw [← List.getLast?_reverse] at htext
  cases h with
  | top h =>
    refine .top ?_
    rw [List.reverse_cons]
    exact h.concat (by rwa [Nat.zero_add]) htext
  | inside houter hoffset htag hcloser h =>
    rw [List.append_assoc, List.append_assoc]
    refine .inside houter hoffset htag hcloser ?_
    rw [List.reverse_cons]
    refine h.concat ?_ htext
    rwa [Text.byteLength_append, Text.byteLength_append, ← Nat.add_assoc] at hn

theorem opened {head : ElementHead} {closer : Closer} {word tag : List Char} {start : Nat}
    (h : Gathered stack nodes cs) (hstart : start = byteLength cs) (htag : TagText head word tag)
    (hcloser : ∀ name, closer.Matches name → head.ClosesWith word name) :
    Gathered (⟨head, closer, start, nodes⟩ :: stack) [] (cs ++ (tag ++ ['>'])) := by
  rw [← List.append_nil (tag ++ ['>'])]
  exact .inside h hstart htag hcloser rfl

theorem closed {e : OpenElement} {name blanks : List Char} {stop : Nat}
    (h : Gathered (e :: stack) nodes cs) (hname : e.closer.Matches name) (hblanks : Spaces blanks)
    (hstop : stop = byteLength (cs ++ '<' :: '/' :: (name ++ (blanks ++ ['>'])))) :
    Gathered stack (.element e.head nodes.reverse (Span.ofBounds e.offset stop) :: e.before)
      (cs ++ '<' :: '/' :: (name ++ (blanks ++ ['>']))) := by
  cases h with
  | @inside _ _ _ before word tag inner houter hoffset htag hcloser h =>
    rw [List.append_assoc] at hstop ⊢
    have hspan : Span.ofBounds e.offset stop = Span.ofBounds (byteLength before)
        (byteLength before + byteLength
          (tag ++ ['>'] ++ inner ++ '<' :: '/' :: (name ++ (blanks ++ ['>'])))) := by
      rw [hoffset, hstop, Text.byteLength_append]
    have hnode : SpelledBy (byteLength before)
        (tag ++ ['>'] ++ inner ++ '<' :: '/' :: (name ++ (blanks ++ ['>'])))
        (.element e.head nodes.reverse (Span.ofBounds e.offset stop)) :=
      ⟨hspan, word, tag, htag,
        .inr ⟨inner, name, blanks, by simp, hcloser name hname, hblanks, h⟩⟩
    exact houter.concat hnode fun hisText => nomatch hisText

theorem addText (h : Gathered stack nodes cs) (hpiece : ∀ m ∈ nodes.head?, m.isText = false)
    (text : List Char) :
    Gathered stack (NodeTree.addText (byteLength cs) text nodes) (cs ++ text) := by
  unfold NodeTree.addText
  split
  · rename_i hempty
    rw [List.isEmpty_iff.1 hempty, List.append_nil]
    exact h
  · rename_i hne
    have hnode : SpelledBy (byteLength cs) text (.text (String.ofList text)
        (Span.ofBounds (byteLength cs) (byteLength cs + byteLength text))) :=
      ⟨by simpa using hne, by simp, rfl⟩
    exact h.concat hnode fun _ => hpiece

end Gathered

/-! ### Whole templates -/

namespace NodeTree

variable {declarations : Declarations} {source cs text : List Char} {c : Cursor}

theorem offset_of_reads (h : Cursor.Reads ⟨0, source⟩ cs c) : c.offset = byteLength cs := by
  simpa using h.offset

theorem offset_of_append (h : Cursor.Reads ⟨0, source⟩ cs c) :
    c.offset + byteLength text = byteLength (cs ++ text) := by
  rw [offset_of_reads h, Text.byteLength_append]

/-- What is gathered when a text and the piece after it have been scanned. -/
theorem gathered_of_scan {stack : List OpenElement} {nodes : List Node} {closer : Option Closer}
    {piece : Piece} (h : Gathered stack nodes cs) (hread : Cursor.Reads ⟨0, source⟩ cs c)
    (hpiece : ∀ m ∈ nodes.head?, m.isText = false)
    (hscan : Cursor.scan declarations closer c.offset c.rest = (text, .ok piece)) :
    ∃ d, Cursor.Reads ⟨0, source⟩ (cs ++ text) d ∧ piece.ReadFrom closer d ∧
      Gathered stack (addText c.offset text nodes) (cs ++ text) := by
  obtain ⟨d, hd, hfrom⟩ := Cursor.exists_of_scan hscan
  refine ⟨d, hread.trans hd, hfrom, ?_⟩
  rw [offset_of_reads hread]
  exact h.addText hpiece text

theorem spelled_of_readAll {stack : List OpenElement} {nodes children : List Node}
    (h : readAll declarations stack nodes c = .ok children)
    (hgathered : Gathered stack nodes cs) (hread : Cursor.Reads ⟨0, source⟩ cs c)
    (hpiece : ∀ m ∈ nodes.head?, m.isText = false) : AllSpelledBy 0 source children := by
  fun_induction readAll declarations stack nodes c generalizing cs with
  | case1 => cases h
  | case2 =>
    rename_i hscan
    cases h
    obtain ⟨d, hd, hend, hgathered⟩ := gathered_of_scan hgathered hread hpiece hscan
    -- At the end nothing is left of the source.
    cases hgathered with
    | top h =>
      have hsource := hd.rest
      rw [show d.rest = [] from hend, List.append_nil] at hsource
      rwa [show source = _ from hsource]
  | case3 => cases h
  | case4 =>
    -- Where no element is open, no closing tag is looked for.
    rename_i hscan
    obtain ⟨d, hd, ⟨closer, name, blanks, hnone, -⟩, -⟩ :=
      gathered_of_scan hgathered hread hpiece hscan
    exact nomatch (show none = some closer from hnone)
  | case5 =>
    rename_i e outer _ _ _ hscan ih
    obtain ⟨d, hd, ⟨closer, name, blanks, hcloser, hname, hblanks, hfrom⟩, hgathered⟩ :=
      gathered_of_scan hgathered hread hpiece hscan
    obtain rfl : e.closer = closer := Option.some.inj hcloser
    have hall := hd.trans hfrom
    exact ih h (hgathered.closed hname hblanks (offset_of_reads hall)) hall
      fun m hm => by cases hm; rfl
  | case6 =>
    rename_i hscan ih
    obtain ⟨d, hd, ⟨ds, hfrom, hnode, hisText, -⟩, hgathered⟩ :=
      gathered_of_scan hgathered hread hpiece hscan
    rw [offset_of_reads hd] at hnode
    exact ih h (hgathered.concat hnode fun hcontra => by simp [hisText] at hcontra)
      (hd.trans hfrom) fun m hm => by cases hm; exact hisText
  | case7 =>
    rename_i text start _ head after _ closed hscan ih
    obtain ⟨d, hd, ⟨word, tag, htag, hfrom⟩, hgathered⟩ :=
      gathered_of_scan hgathered hread hpiece hscan
    have hall := hd.trans hfrom
    have hstart : start = byteLength (cs ++ text) := offset_of_append hread
    have hnode : SpelledBy (byteLength (cs ++ text)) (tag ++ ['/', '>']) closed :=
      ⟨by rw [← Text.byteLength_append, ← offset_of_reads hall, ← hstart], word, tag, htag,
        .inl ⟨rfl, rfl⟩⟩
    exact ih h (hgathered.concat hnode fun hisText => nomatch hisText) hall
      fun m hm => by cases hm; rfl
  | case8 =>
    rename_i hscan ih
    obtain ⟨d, hd, ⟨word, tag, htag, hfrom, hcloser⟩, hgathered⟩ :=
      gathered_of_scan hgathered hread hpiece hscan
    exact ih h (hgathered.opened (offset_of_append hread) htag hcloser) (hd.trans hfrom)
      fun m hm => nomatch hm

theorem spelled_of_parse {source : String} {tree : NodeTree}
    (h : parse declarations source = .ok tree) : AllSpelledBy 0 source.toList tree.children :=
  spelled_of_readAll (readAll_of_parse h).1 (.top rfl) (.refl _) fun _ hm => nomatch hm

end NodeTree

/-! ### Spans as places in the source -/

namespace Node

variable {source : String} {n m : Node}

theorem forall_walk {P : Node → Prop} (hchildren : ∀ n, P n → ∀ m ∈ n.children, P m)
    {waiting : List Node} (h : ∀ n ∈ waiting, P n) : ∀ n ∈ walk waiting, P n := by
  fun_induction walk waiting with
  | case1 => exact h
  | case2 n waiting ih =>
    have hn := h n List.mem_cons_self
    rintro m (_ | ⟨_, hm⟩)
    · exact hn
    · refine ih (fun k hk => ?_) m hm
      rcases List.mem_append.1 hk with hk | hk
      · exact hchildren n hn k hk
      · exact h k (List.mem_cons_of_mem n hk)

/-- Some part of the source spells the node. -/
def Placed (source : String) (n : Node) : Prop :=
  ∃ before cs after, source.toList = before ++ (cs ++ after) ∧ n.SpelledBy (byteLength before) cs

theorem Placed.of_mem {before cs after : List Char} {nodes : List Node}
    (hsource : source.toList = before ++ (cs ++ after))
    (h : AllSpelledBy (byteLength before) cs nodes) (hn : n ∈ nodes) : Placed source n := by
  obtain ⟨left, inner, right, rfl, hspelled⟩ := h.exists_of_mem hn
  exact ⟨before ++ left, inner, right ++ after, by simp [hsource],
    by rwa [Text.byteLength_append]⟩

theorem Placed.of_mem_children (h : Placed source n) (hm : m ∈ n.children) : Placed source m := by
  obtain ⟨before, cs, after, hsource, hn⟩ := h
  cases n with
  | text => cases hm
  | comment => cases hm
  | raw => cases hm
  | element head children span =>
    obtain ⟨-, word, tag, -, ⟨-, rfl⟩ | ⟨inner, name, blanks, rfl, -, -, hinner⟩⟩ := hn
    · cases hm
    · have hsource : source.toList = before ++ (tag ++ ['>']) ++
          (inner ++ ('<' :: '/' :: (name ++ (blanks ++ ['>'])) ++ after)) := by
        simp [hsource]
      exact .of_mem hsource (by rwa [Text.byteLength_append]) hm

theorem SpelledBy.slice_eq {before cs after : List Char}
    (hsource : source.toList = before ++ (cs ++ after))
    (hmax : byteLength source.toList ≤ maxOffset) (h : n.SpelledBy (byteLength before) cs) :
    n.span.start = byteLength before ∧ n.span.slice source = some (String.ofList cs) := by
  rw [hsource] at hmax
  simp only [Text.byteLength_append] at hmax
  obtain ⟨hstart, hstop⟩ := h.start_stop (by omega)
  exact ⟨hstart, by rw [Span.slice, hstart, hstop, hsource, Text.slice_append]; rfl⟩

theorem Placed.mirrors (h : Placed source n) (hmax : byteLength source.toList ≤ maxOffset) :
    n.Mirrors source := by
  obtain ⟨before, cs, after, hsource, hn⟩ := h
  obtain ⟨hstart, hslice⟩ := hn.slice_eq hsource hmax
  cases n with
  | text =>
    obtain ⟨-, rfl, -⟩ := hn
    rwa [String.ofList_toList] at hslice
  | comment => exact ⟨_, hslice, by simpa using hn.2.1⟩
  | raw => exact ⟨_, hslice, by simpa using hn.2.1⟩
  | element head children span =>
    obtain ⟨-, word, tag, htag, ⟨rfl, rfl⟩ | ⟨inner, name, blanks, rfl, hname, hblanks, hinner⟩⟩ :=
      hn
    · exact ⟨.nil, word, tag, htag, .inl ⟨hslice, rfl⟩⟩
    · refine ⟨hinner.textsApart, word, tag, htag,
        .inr ⟨inner, name, blanks, hslice, hname, hblanks, ?_⟩⟩
      rw [hsource] at hmax
      rw [show span.start = _ from hstart]
      have hinside : byteLength (tag ++ '>' :: inner) =
          byteLength (tag ++ ['>']) + byteLength inner := by simp [Nat.add_assoc]
      rw [hinside, ← Nat.add_assoc]
      refine hinner.tiles ?_
      simp only [Text.byteLength_append, Text.byteLength_cons] at hmax ⊢
      omega

end Node

namespace NodeTree

/-- The tree of a template loses nothing of its source. -/
theorem parse_lossless {declarations : Declarations} {source : String} {tree : NodeTree}
    (hlength : byteLength source.toList < 2 ^ 32) (h : parse declarations source = .ok tree) :
    Node.Tiles 0 (byteLength source.toList) tree.children ∧ Node.TextsApart tree.children ∧
      ∀ n ∈ tree.descendants, n.Mirrors source := by
  have hmax : byteLength source.toList ≤ maxOffset := Nat.le_of_lt_succ hlength
  have hspelled := spelled_of_parse h
  refine ⟨?_, hspelled.textsApart, ?_⟩
  · simpa using hspelled.tiles (by rwa [Nat.zero_add])
  · have hsource : source.toList = [] ++ (source.toList ++ []) := by simp
    have hplaced : ∀ n ∈ tree.children, n.Placed source := fun n hn =>
      .of_mem hsource hspelled hn
    intro n hn
    exact (Node.forall_walk (fun k hk m hm => hk.of_mem_children hm) hplaced n hn).mirrors hmax

namespace BoxTemplate

def declarations : Declarations :=
  [("Row", ⟨"Row", "GenericElement", []⟩)]

/-- A box whose binding holds a `>`, around a row with a closing tag in another case. -/
def source : String :=
  "a<p:comment>b</p:comment><c:Box t='>'><WO name=Row>d</wo ><c:End/></c:Box>"

end BoxTemplate

theorem parse_lossless_boxTemplate : byteLength BoxTemplate.source.toList < 2 ^ 32 ∧
    ∃ tree, parse BoxTemplate.declarations BoxTemplate.source = .ok tree ∧
      Node.Tiles 0 (byteLength BoxTemplate.source.toList) tree.children ∧
      Node.TextsApart tree.children ∧ ∀ n ∈ tree.descendants, n.Mirrors BoxTemplate.source := by
  have hlength : byteLength BoxTemplate.source.toList < 2 ^ 32 := by decide +kernel
  have hparse : (parse BoxTemplate.declarations BoxTemplate.source).isOk = true := by
    decide +kernel
  refine ⟨hlength, ?_⟩
  cases h : parse BoxTemplate.declarations BoxTemplate.source with
  | error fault =>
    rw [h] at hparse
    cases hparse
  | ok tree => exact ⟨tree, rfl, parse_lossless hlength h⟩

end NodeTree

end PageEngine
