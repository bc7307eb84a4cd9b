import PageEngine.Proofs.Element.Inlined
import PageEngine.Proofs.Markup.Distinct
import PageEngine.Proofs.Markup.Enclosed
import PageEngine.Proofs.Markup.LoneBinding

/-! Two ways to write one element: with a tag that names its declaration, and with the type and the
bindings on the tag. Around the same template both are read as an element with the nodes of the
template, and the same page is built from them. -/

namespace PageEngine

open Text (byteLength isMarkupSpace)

/-! ### Building without places -/

namespace Engine

open Node (mapSpans mapSpansAll unplaced)

variable {engine : Engine} {template : String} {f : Span → Span} {nodes nodes' : List Node}

mutual

theorem buildNode_mapSpans : ∀ (n : Node) (address : List Nat),
    engine.buildNode template address (mapSpans f n) = engine.buildNode template address n
  | .text _ _, _ => rfl
  | .comment _ _, _ => rfl
  | .raw _ _, _ => rfl
  | .element head children _, address => by
    rw [mapSpans, buildNode, buildNode, buildNodes_mapSpans children address 0]

theorem buildNodes_mapSpans : ∀ (nodes : List Node) (address : List Nat) (i : Nat),
    engine.buildNodes template address i (mapSpansAll f nodes) =
      engine.buildNodes template address i nodes
  | [], _, _ => rfl
  | n :: rest, address, i => by
    rw [mapSpansAll, buildNodes, buildNodes, buildNode_mapSpans n, buildNodes_mapSpans rest]

end

/-- Where nodes stand does not matter for what is built from them. -/
theorem buildNodes_of_unplaced (h : nodes.map unplaced = nodes'.map unplaced) (address : List Nat)
    (i : Nat) : engine.buildNodes template address i nodes =
      engine.buildNodes template address i nodes' := by
  have hplaces (nodes : List Node) : engine.buildNodes template address i (nodes.map unplaced) =
      engine.buildNodes template address i nodes := by
    rw [unplaced, ← Node.mapSpansAll_eq, buildNodes_mapSpans]
  rw [← hplaces nodes, h, hplaces]

/-- Elements with the same content differ only in their bindings. -/
theorem build_element_congr {head head' : ElementHead} {span span' whole whole' : Span}
    (hspace : head.space = head'.space) (htype : head.typeName = head'.typeName)
    (hbindings : readBindings head.typeName head.isInline head.bindings =
      readBindings head'.typeName head'.isInline head'.bindings)
    (hnodes : nodes.map unplaced = nodes'.map unplaced) :
    engine.build template ⟨[.element head nodes span], whole⟩ =
      engine.build template ⟨[.element head' nodes' span'], whole'⟩ := by
  have hresolve (site : Site) (bindings : Associations) (content : Option Element) :
      engine.resolve site head bindings content = engine.resolve site head' bindings content := by
    rw [resolve, resolve, hspace, htype]
  simp only [build, buildNodes, buildNode, hbindings, hresolve, buildNodes_of_unplaced hnodes]

theorem build_element_of_error {head : ElementHead} {span whole : Span} {cause : BindingError}
    (h : readBindings head.typeName head.isInline head.bindings = .error cause) :
    engine.build template ⟨[.element head nodes span], whole⟩ = .error (.binding cause) := by
  rw [build, buildNodes, buildNode, h]
  rfl

end Engine

/-! ### The templates -/

/-- A template between the tags of a declared element. -/
def namedTemplate (name content : String) : String :=
  "<wo name=" ++ name ++ ">" ++ content ++ "</wo>"

/-- A template between tags with the type and the bindings of a declaration. -/
def Declaration.inlineTemplate (d : Declaration) (content : String) : String :=
  String.ofList d.inlineHead.tag ++ ">" ++ content ++ "</wo:" ++ d.typeName ++ ">"

/-- In no text at the top a closing tag of a declared element stands, in any letter case. -/
def NodeTree.LeavesOpen (tree : NodeTree) : Prop :=
  ∀ shown span, .text shown span ∈ tree.children → ∀ before word c after,
    shown.toList = before ++ '<' :: '/' :: (word ++ c :: after) →
      word.map Char.toLower = ['w', 'o'] → c ≠ '>' ∧ isMarkupSpace c = false

namespace NodeTree

variable {declarations : Declarations}

/-- The closing tag that a declared element waits for. -/
def namedCloser : Closer := ⟨['w', 'o'], true⟩

theorem LeavesOpen.closedNowhere {tree : NodeTree} (h : tree.LeavesOpen) {shown : String}
    {span : Span} (hmem : .text shown span ∈ tree.children) :
    Cursor.ClosedNowhere namedCloser shown.toList := by
  rintro ds ⟨before, hds⟩ -
  cases hclose : namedCloser.closes? ds with
  | none => rfl
  | some after =>
    obtain ⟨word, rfl, hword⟩ := Closer.exists_of_closes? hclose
    have hends : Directive.endsCloser after = true := (Option.filter_eq_some_iff.1 hclose).2
    cases after with
    | nil => cases hends
    | cons c after =>
      obtain ⟨hangle, hspace⟩ := h shown span hmem before word c after hds.symm hword
      simp [Directive.endsCloser, hangle, hspace] at hends

/-- A name can stand on a tag without quotes. -/
theorem printable_name {name : String} (hname : IsIdentifier name.toList) :
    Bindings.PrintableEntry ("name", .bare name) where
  key_ne_nil := (by decide : "name".toList ≠ [])
  key := List.all_eq_true.1 (rfl : "name".toList.all Cursor.isKeyChar = true)
  value := by
    have hbare {c : Char} (hc : c ∈ name.toList) : Cursor.isBareChar c = true := by
      by_contra hbare
      have hword := Cursor.not_isWordChar_of_not_isBareChar (Bool.eq_false_iff.2 hbare)
      simp [Cursor.isWordChar, hname.chars c hc] at hword
    refine ⟨hname.ne_nil, fun c hc => ?_, fun c hc => hbare hc⟩
    have hquotes : isIdentifierChar c = true := hname.chars c (List.mem_of_mem_head? hc)
    rw [isQuote, Bool.or_eq_false_iff]
    constructor
    · rw [beq_eq_false_iff_ne]
      rintro rfl
      cases hquotes
    · rw [beq_eq_false_iff_ne]
      rintro rfl
      cases hquotes

theorem oneBinding_name (name : String) :
    OneBinding "name".toList name.toList (' ' :: ("name".toList ++ '=' :: name.toList)) where
  spaced := by
    have hblank : ∀ c ∈ [' '], isMarkupSpace c = true := List.forall_mem_singleton.2 rfl
    have hnone : ∀ c ∈ ([] : List Char), isMarkupSpace c = true := fun _ hc => nomatch hc
    exact ⟨[' '], _, hblank, rfl, [], _, hnone, rfl, [], [], hnone,
      (List.append_nil name.toList).symm, hnone⟩
  apart := by
    rintro _ ⟨⟩
    rfl

/-- The tag of a declared element up to its end. -/
def namedTag (name : String) : List Char :=
  '<' :: (['w', 'o'] ++ ' ' :: ("name".toList ++ '=' :: name.toList))

theorem readsTag_namedTag {name : String} {d : Declaration} (hname : IsIdentifier name.toList)
    (hd : Dictionary.get? name declarations = some d) (waited : Option Closer) (offset : Nat) :
    ReadsTag declarations waited offset (namedTag name) d.head namedCloser := by
  intro tail htail
  have hword : Cursor.IsLegacyWord ['w', 'o'] :=
    (by decide : String.ofList (['w', 'o'].map Char.toLower) ∈ legacyKeywords)
  have hne : name ≠ "" := by
    rintro rfl
    exact hname.ne_nil rfl
  exact Cursor.pieceAt_of_word hword
    ((oneBinding_name name).writtenAs (printable_name hname) rfl htail)
    ⟨' ', rfl, rfl⟩ rfl hne hd

theorem exists_parse_namedTemplate {name content : String} {d : Declaration} {tree : NodeTree}
    (hname : IsIdentifier name.toList) (hd : Dictionary.get? name declarations = some d)
    (h : parse declarations content = .ok tree) (hopen : tree.LeavesOpen) :
    ∃ nodes span whole, nodes.map Node.unplaced = tree.children.map Node.unplaced ∧
      parse declarations (namedTemplate name content) =
        .ok ⟨[.element d.head nodes span], whole⟩ := by
  have hopening (rest : List Char) := (readsTag_namedTag hname hd none 0).pieceAt_opened rest
  simp only [Nat.zero_add] at hopening
  have hinner : namedCloser.IsInner :=
    List.all_eq_true.1 (by decide : ['w', 'o'].all isInner = true)
  have hmatches : namedCloser.Matches ['w', 'o'] := rfl
  have htext : (namedTemplate name content).toList = namedTag name ++
      '>' :: (content.toList ++ '<' :: '/' :: (['w', 'o'] ++ ['>'])) := by
    simp [namedTemplate, namedTag]
  exact exists_parse_enclosed hopening hinner hmatches htext h fun _ _ => hopen.closedNowhere

theorem exists_parse_inlineTemplate {content : String} {d : Declaration} {tree : NodeTree}
    (hprintable : d.inlineHead.Printable) (h : parse declarations content = .ok tree) :
    ∃ nodes span whole, nodes.map Node.unplaced = tree.children.map Node.unplaced ∧
      parse declarations (d.inlineTemplate content) =
        .ok ⟨[.element d.inlineHead nodes span], whole⟩ := by
  have hinner : d.inlineHead.closer.IsInner := fun w hw =>
    Cursor.isInner_of_isWordChar (hprintable.isWordChar_of_mem hw)
  have hopening (rest : List Char) : Cursor.pieceAt declarations none
      ⟨0, d.inlineHead.tag ++ '>' :: rest⟩ = _ := hprintable.pieceAt_opening
  simp only [Nat.zero_add] at hopening
  have hmatches : d.inlineHead.closer.Matches d.inlineHead.word := rfl
  have htext : (d.inlineTemplate content).toList = d.inlineHead.tag ++
      '>' :: (content.toList ++ '<' :: '/' :: (d.inlineHead.word ++ ['>'])) := by
    simp [Declaration.inlineTemplate, ElementHead.word, Declaration.inlineHead,
      toList_declarationSpace]
  exact exists_parse_enclosed hopening hinner hmatches htext h fun _ _ _ =>
    .of_isInline hprintable.isInline_closer _

/-- Both templates are read as one element with the same nodes. -/
theorem exists_compile_both {source name content : String} {d : Declaration} {tree : NodeTree}
    (hsource : Declarations.parse source = .ok declarations)
    (hd : Dictionary.get? name declarations = some d)
    (hname : ∀ c ∈ name.toList, isIdentifierChar c = true) (hinline : d.CanInline)
    (hcontent : compile content source = .ok tree) (hopen : tree.LeavesOpen) :
    ∃ nodes nodes' span span' whole whole', nodes'.map Node.unplaced = nodes.map Node.unplaced ∧
      compile (namedTemplate name content) source = .ok ⟨[.element d.head nodes span], whole⟩ ∧
      compile (d.inlineTemplate content) source =
        .ok ⟨[.element d.inlineHead nodes' span'], whole'⟩ := by
  have hcompile (text : String) : compile text source = parse declarations text := by
    rw [compile, hsource]
  have hmem := Dictionary.mem_of_get? hd
  obtain ⟨rfl, hread⟩ := Declarations.allRead_of_parse hsource name d hmem
  have hordered := Declarations.allOrdered_of_parse hsource d.name d hmem
  rw [hcompile] at hcontent
  obtain ⟨nodes, span, whole, hnodes, hnamed⟩ :=
    exists_parse_namedTemplate ⟨hread.name_ne_nil, hname⟩ hd hcontent hopen
  obtain ⟨nodes', span', whole', hnodes', hinlined⟩ :=
    exists_parse_inlineTemplate (hinline.printable hread hordered) hcontent
  exact ⟨nodes, nodes', span, span', whole, whole', hnodes'.trans hnodes.symm,
    (hcompile _).trans hnamed, (hcompile _).trans hinlined⟩

end NodeTree

/-- A declared element and the same element with its bindings on the tag are built alike around the
same template. Only an unknown escape behind a dollar sign is reported with the text in which it is
written. -/
theorem Engine.build_inlineTemplate {source name content : String} {declarations : Declarations}
    {d : Declaration} {tree : NodeTree} (hsource : Declarations.parse source = .ok declarations)
    (hd : Dictionary.get? name declarations = some d)
    (hname : ∀ c ∈ name.toList, isIdentifierChar c = true) (hinline : d.CanInline)
    (hcontent : NodeTree.compile content source = .ok tree) (hopen : tree.LeavesOpen) :
    ∃ named inline, NodeTree.compile (namedTemplate name content) source = .ok named ∧
      NodeTree.compile (d.inlineTemplate content) source = .ok inline ∧
      ∀ (engine : Engine) (template : String),
        engine.build template inline = engine.build template named ∨
          ∃ key body c, (key, .quoted (String.ofList ('"' :: '$' :: (body ++ ['"'])))) ∈ d.bindings ∧
            engine.build template named = .error (.binding (.association d.typeName key
              (.invalidEscape (String.ofList ('$' :: body)) c))) ∧
            engine.build template inline = .error (.binding (.association d.typeName key
              (.invalidEscape (String.ofList ('\\' :: '$' :: body)) c))) := by
  obtain ⟨nodes, nodes', span, span', whole, whole', hnodes, hnamed, hinlined⟩ :=
    NodeTree.exists_compile_both hsource hd hname hinline hcontent hopen
  refine ⟨_, _, hnamed, hinlined, fun engine template => ?_⟩
  have hread := (Declarations.allRead_of_parse hsource name d (Dictionary.mem_of_get? hd)).2
  have hvalues (key : String) (value : BindingValue) (hmem : (key, value) ∈ d.bindings) :
      value.SameInlined :=
    Association.sameInlined value (hread.value key value hmem) (hinline.value key value hmem)
  rcases readBindings_inlined d.typeName hvalues with hsame | ⟨key, body, c, hbody, hdeclared, hfault⟩
  · exact .inl (build_element_congr rfl rfl hsame hnodes)
  · exact .inr ⟨key, body, c, hbody, build_element_of_error hdeclared,
      build_element_of_error hfault⟩

namespace LinkTemplate

def source : String :=
  "Go : link \x7b action = save; disabled = true; title = \"5 \\t off\"; \x7d"

def go : Declaration :=
  ⟨"Go", "link", [("action", .bare "save"), ("disabled", .bare "true"),
    ("title", .quoted "\"5 \\t off\"")]⟩

def content : String :=
  "Save <wo name=Go/>!"

theorem canInline_go : go.CanInline where
  typeStart := ⟨'l', rfl, rfl⟩
  typeName := List.all_eq_true.1 (by decide : "link".toList.all isIdentifierChar = true)
  key := by
    have hkeys : (go.bindings.all fun b =>
        b.1 != "" && b.1.toList.all Cursor.isKeyChar) = true := by decide
    intro key value hmem
    obtain ⟨hne, hchars⟩ := Bool.and_eq_true_iff.1 (List.all_eq_true.1 hkeys (key, value) hmem)
    exact ⟨bne_iff_ne.1 hne, List.all_eq_true.1 hchars⟩
  value := by
    have haction : BindingValue.CanInline (.bare "save") := ⟨by decide, by decide, by decide⟩
    have hdisabled : BindingValue.CanInline (.bare "true") :=
      ⟨by decide, by decide, fun _ => .inl rfl⟩
    intro key value hmem
    simp only [go, List.mem_cons, Prod.mk.injEq, List.not_mem_nil, or_false] at hmem
    obtain ⟨-, rfl⟩ | ⟨-, rfl⟩ | ⟨-, rfl⟩ := hmem
    · exact haction
    · exact hdisabled
    · trivial

def isOpen : Node → Bool
  | .text shown _ => !shown.toList.contains '<'
  | _ => true

def compilesOpen : Except FormatError NodeTree → Bool
  | .ok tree => tree.children.all isOpen
  | .error _ => false

theorem exists_content : ∃ tree, NodeTree.compile content source = .ok tree ∧ tree.LeavesOpen := by
  have hopen : compilesOpen (NodeTree.compile content source) = true := by decide +kernel
  cases hcompile : NodeTree.compile content source with
  | ok tree =>
    refine ⟨tree, rfl, fun shown span hmem before word c after hshown => ?_⟩
    rw [hcompile] at hopen
    have hangle := List.all_eq_true.1 hopen _ hmem
    rw [isOpen, hshown] at hangle
    simp at hangle
  | error e =>
    rw [hcompile] at hopen
    cases hopen

end LinkTemplate

open LinkTemplate in
theorem Engine.build_inlineTemplate_linkTemplate :
    Declarations.parse source = .ok [("Go", go)] ∧ go.CanInline ∧
      (∃ tree, NodeTree.compile content source = .ok tree ∧ tree.LeavesOpen) ∧
      go.inlineTemplate content =
        "<wo:link action=\"$save\" disabled=\"$true\" title=\"5 \\t off\">" ++ content ++
          "</wo:link>" ∧
      ∃ named inline, NodeTree.compile (namedTemplate "Go" content) source = .ok named ∧
        NodeTree.compile (go.inlineTemplate content) source = .ok inline ∧
        ∀ (engine : Engine) (template : String),
          engine.build template inline = engine.build template named := by
  have hsource : Declarations.parse source = .ok [("Go", go)] := by decide +kernel
  obtain ⟨tree, hcontent, hopen⟩ := exists_content
  obtain ⟨named, inline, hnamed, hinline, hbuild⟩ := build_inlineTemplate hsource rfl
    (List.all_eq_true.1 (by decide : "Go".toList.all isIdentifierChar = true)) canInline_go
    hcontent hopen
  refine ⟨hsource, canInline_go, ⟨tree, hcontent, hopen⟩, by decide +kernel, named, inline, hnamed,
    hinline, fun engine template => ?_⟩
  rcases hbuild engine template with hsame | ⟨key, body, c, hbody, -⟩
  · exact hsame
  · -- No constant begins with a dollar sign.
    simp only [go, List.mem_cons, Prod.mk.injEq, List.not_mem_nil, or_false] at hbody
    obtain ⟨-, hvalue⟩ | ⟨-, hvalue⟩ | ⟨-, hvalue⟩ := hbody
    · cases hvalue
    · cases hvalue
    · have htext := congrArg String.toList (BindingValue.quoted.inj hvalue)
      rw [String.toList_ofList] at htext
      simp at htext

/-! ### An unknown escape -/

namespace UnknownEscape

def source : String :=
  "X : str \x7b value = \"$\\q\"; \x7d"

def declared : Declaration :=
  ⟨"X", "str", [("value", .quoted "\"$\\q\"")]⟩

def engine : Engine :=
  ⟨.standard, [], .memory []⟩

theorem canInline_declared : declared.CanInline where
  typeStart := ⟨'s', rfl, rfl⟩
  typeName := List.all_eq_true.1 (by decide : "str".toList.all isIdentifierChar = true)
  key key value hmem := by
    cases List.mem_singleton.1 hmem
    exact ⟨by decide, List.all_eq_true.1 (by decide : "value".toList.all Cursor.isKeyChar = true)⟩
  value key value hmem := by
    cases List.mem_singleton.1 hmem
    trivial

end UnknownEscape

open UnknownEscape in
/-- Both templates fail because of the escape in one constant, with errors that show it as it is
written in each. -/
theorem Engine.build_inlineTemplate_unknownEscape :
    Declarations.parse source = .ok [("X", declared)] ∧ declared.CanInline ∧
      declared.inlineTemplate "" = "<wo:str value=\"\\$\\q\"></wo:str>" ∧
      ∃ tree named inline, NodeTree.compile "" source = .ok tree ∧ tree.LeavesOpen ∧
        NodeTree.compile (namedTemplate "X" "") source = .ok named ∧
        NodeTree.compile (declared.inlineTemplate "") source = .ok inline ∧
        engine.build "Page" named = .error (.binding (.association "str" "value"
          (.invalidEscape "$\\q" 'q'))) ∧
        engine.build "Page" inline = .error (.binding (.association "str" "value"
          (.invalidEscape "\\$\\q" 'q'))) ∧
        engine.build "Page" inline ≠ engine.build "Page" named := by
  have hsource : Declarations.parse source = .ok [("X", declared)] := by decide +kernel
  have hcontent : NodeTree.compile "" source = .ok ⟨[], Span.ofBounds 0 0⟩ := by
    have hread : NodeTree.readAll [("X", declared)] [] [] ⟨0, "".toList⟩ = .ok [] :=
      NodeTree.readAll_nil _ _ _
    rw [NodeTree.compile, hsource]
    dsimp only
    rw [NodeTree.parse_eq, hread]
    rfl
  have hopen : NodeTree.LeavesOpen ⟨[], Span.ofBounds 0 0⟩ := fun _ _ hmem => nomatch hmem
  have hname : "X".toList.all isIdentifierChar = true := by decide
  obtain ⟨nodes, nodes', span, span', whole, whole', -, hnamed, hinlined⟩ :=
    NodeTree.exists_compile_both hsource rfl (List.all_eq_true.1 hname) canInline_declared
      hcontent hopen
  have hdeclared : engine.build "Page" ⟨[.element declared.head nodes span], whole⟩ =
      .error (.binding (.association "str" "value" (.invalidEscape "$\\q" 'q'))) :=
    build_element_of_error rfl
  have hinline : engine.build "Page" ⟨[.element declared.inlineHead nodes' span'], whole'⟩ =
      .error (.binding (.association "str" "value" (.invalidEscape "\\$\\q" 'q'))) :=
    build_element_of_error rfl
  refine ⟨hsource, canInline_declared, by decide +kernel, _, _, _, hcontent, hopen, hnamed,
    hinlined, hdeclared, hinline, ?_⟩
  rw [hdeclared, hinline]
  exact fun heq => absurd (Except.error.inj heq) (by decide)

end PageEngine
