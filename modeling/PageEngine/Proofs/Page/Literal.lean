import PageEngine.Proofs.Component.Scope
import PageEngine.Proofs.Markup.LoneBinding
import PageEngine.Proofs.Walk.Visits

/-! What is written is what is shown. A text that is written as a double-quoted literal, on the
tag of a string element or in the declaration that the tag names, is a constant of the resolved
element, and a rendering of the page prints the text, escaped, between the texts around it. -/

namespace PageEngine

open Text (byteLength)

/-! ### Writing a string element -/

/-- Namespace and type of an inline element. -/
structure IsTagWord (space typeName : String) : Prop where
  space_ne_nil : space.toList ≠ []
  space_alpha : ∀ c ∈ space.toList, c.isAlpha = true
  typeStart : ∃ c ∈ typeName.toList.head?, c.isAlphanum = true
  typeChars : ∀ c ∈ typeName.toList, isIdentifierChar c = true
  noDirective : ∀ d : Directive,
    (space.toList ++ ':' :: typeName.toList).map Char.toLower ≠ 'p' :: ':' :: d.name.toList

/-- The bindings of a string element whose value is a literal. -/
def Quotation.bindings (text : String) : Bindings :=
  [("value", .quoted (Quotation.literal text))]

theorem Quotation.printable_entry (text : String) :
    Bindings.PrintableEntry ("value", .quoted (Quotation.literal text)) where
  key_ne_nil := (by decide : "value".toList ≠ [])
  key := List.all_eq_true.1 (rfl : "value".toList.all Cursor.isKeyChar = true)
  value := Quotation.printable_literal text

theorem IsTagWord.printable {space typeName : String} (h : IsTagWord space typeName)
    (text : String) :
    ElementHead.Printable ⟨space, typeName, Quotation.bindings text, true, typeName⟩ where
  isInline := rfl
  declaredName := rfl
  space_ne_nil := h.space_ne_nil
  space := h.space_alpha
  typeStart := h.typeStart
  typeName := h.typeChars
  noDirective := h.noDirective
  bindings := ⟨List.pairwise_singleton .., by
    intro entry hentry
    cases List.mem_singleton.1 hentry
    exact Quotation.printable_entry text⟩

/-- A file with the declaration of a string element whose value is a literal. Complete lines with
other declarations may stand before it, and more declarations behind it. -/
structure DeclaresLiteral (name typeName text : String)
    (before declaration trail after : List Char) : Prop where
  isName : IsIdentifier name.toList
  isType : IsIdentifier typeName.toList
  spaced : Spaced Text.isBlank [name.toList, [':'], typeName.toList, ['\x7b'], "value".toList,
    ['='], (Quotation.literal text).toList, trail, ['\x7d']] declaration
  trailing : ∀ c ∈ trail, c = ';' ∨ Text.isBlank c = true
  endsLine : Lexeme.EndsLine before
  others : ∃ earlier later, Declarations.read before = .ok earlier ∧
    Declarations.read after = .ok later ∧ Dictionary.contains name earlier = false ∧
    ∀ other, Dictionary.contains other later = true →
      other ≠ name ∧ Dictionary.contains other earlier = false

/-- How the text is written as the value of one string element: on its own tag, or in the
declarations, which a tag with the name of the declaration refers to. -/
inductive WritesLiteral (elements : ElementRegistry) (text : String) :
    List Char → List Char → Prop
  | inline {space typeName : String} {binding ending file : List Char} {found : Declarations}
    (hkind : elements.kind? space typeName = some .string) (hword : IsTagWord space typeName)
    (hbinding : OneBinding "value".toList (Quotation.literal text).toList binding)
    (hending : EndsEmpty ⟨space.toList ++ ':' :: typeName.toList, false⟩ ending)
    (hfile : Declarations.read file = .ok found) :
    WritesLiteral elements text
      ('<' :: (space.toList ++ ':' :: typeName.toList ++ binding) ++ ending) file
  | declared {name typeName : String} {value : BindingValue}
    {word written binding ending before declaration trail after : List Char}
    (hkind : elements.kind? declarationSpace typeName = some .string)
    (hword : Cursor.IsLegacyWord word) (hvalue : value.unquoted = some name)
    (hprintable : value.Printable) (hwritten : value.print = '=' :: written)
    (hbinding : OneBinding "name".toList written binding)
    (hending : EndsEmpty ⟨word.map Char.toLower, true⟩ ending)
    (hfile : DeclaresLiteral name typeName text before declaration trail after) :
    WritesLiteral elements text ('<' :: (word ++ binding) ++ ending)
      (before ++ (declaration ++ after))

/-! ### Reading it -/

theorem DeclaresLiteral.read {name typeName text : String}
    {before declaration trail after : List Char}
    (h : DeclaresLiteral name typeName text before declaration trail after) :
    ∃ found, Declarations.read (before ++ (declaration ++ after)) = .ok found ∧
      Dictionary.get? name found = some ⟨name, typeName, Quotation.bindings text⟩ := by
  obtain ⟨earlier, later, hbefore, hafter, hnew, hapart⟩ := h.others
  let d : Declaration := ⟨name, typeName, Quotation.bindings text⟩
  have hliteral : (Quotation.literal text).toList =
      '"' :: (Quotation.body text.toList ++ ['"']) := Quotation.toList_literal text
  have hdeclaration := h.spaced
  rw [hliteral] at hdeclaration
  have hkey : IsIdentifier "value".toList :=
    ⟨by decide, List.all_eq_true.1 (rfl : "value".toList.all isIdentifierChar = true)⟩
  have hread := Declarations.outcome_readAfter_declared hdeclaration h.isName h.isType hkey
    (Quotation.unquoted_body text.toList) h.trailing (by rwa [String.ofList_toList]) after
  simp only [String.ofList_toList] at hread
  have hfree : ∀ other, Dictionary.contains other later = true →
      Dictionary.get? other (Dictionary.insert name d earlier) = none := by
    intro other hother
    obtain ⟨hne, habsent⟩ := hapart other hother
    rw [Dictionary.get?_insert_of_ne hne]
    simpa [Dictionary.contains] using habsent
  obtain ⟨found, hfound, hget⟩ := Declarations.readAfter_of_read hafter hfree
  rw [Declarations.read_eq_readAfter] at hbefore ⊢
  refine ⟨found, outcome_eq_ok_iff.1 ?_, ?_⟩
  · rw [Declarations.outcome_readAfter_append h.endsLine hbefore, hread]
    exact outcome_eq_ok_iff.2 hfound
  · rw [hget, Dictionary.get?_insert_self]
    cases hother : Dictionary.get? name later with
    | none => rfl
    | some other => exact absurd rfl (hapart name (by simp [Dictionary.contains, hother])).1

/-- The tag is read as an element without children whose one binding is the literal, wherever in a
template it stands. -/
theorem WritesLiteral.readAll {elements : ElementRegistry} {text : String} {tag file : List Char}
    (h : WritesLiteral elements text tag file) : ∃ found head, Declarations.read file = .ok found ∧
      elements.kind? head.space head.typeName = some .string ∧
      head.bindings = Quotation.bindings text ∧
      ∀ stack offset rest,
        NodeTree.StartsPiece found (NodeTree.awaited stack) ⟨offset, tag ++ rest⟩ ∧
        ∀ nodes, NodeTree.readAll found stack nodes ⟨offset, tag ++ rest⟩ =
          NodeTree.readAll found stack (.element head []
            (Span.ofBounds offset (offset + byteLength tag)) :: nodes)
            ⟨offset + byteLength tag, rest⟩ := by
  have hread {found : Declarations} {head : ElementHead} {closer : Closer} {tag ending : List Char}
      (htag : ∀ waited offset, NodeTree.ReadsTag found waited offset tag head closer)
      (hending : EndsEmpty closer ending) (stack : List OpenElement) (offset : Nat)
      (rest : List Char) :
      NodeTree.StartsPiece found (NodeTree.awaited stack) ⟨offset, tag ++ ending ++ rest⟩ ∧
        ∀ nodes, NodeTree.readAll found stack nodes ⟨offset, tag ++ ending ++ rest⟩ =
          NodeTree.readAll found stack (.element head []
            (Span.ofBounds offset (offset + byteLength (tag ++ ending))) :: nodes)
            ⟨offset + byteLength (tag ++ ending), rest⟩ := by
    rw [List.append_assoc]
    exact ⟨(htag _ offset).startsPiece hending rest,
      fun _ => (htag _ offset).readAll_eq hending rest⟩
  cases h with
  | @inline space typeName binding ending file found hkind hword hbinding hending hfile =>
    refine ⟨found, ⟨space, typeName, Quotation.bindings text, true, typeName⟩, hfile, hkind, rfl,
      ?_⟩
    refine hread (fun waited offset tail htail => ?_) hending
    exact (hword.printable text).pieceAt_of_writtenAs
      (hbinding.writtenAs (Quotation.printable_entry text) rfl htail)
  | @declared name typeName value word written binding ending _ _ _ _ hkind hword hvalue hprintable
      hwritten hbinding hending hfile =>
    obtain ⟨found, hfound, hget⟩ := hfile.read
    have hentry : Bindings.PrintableEntry ("name", value) :=
      ⟨(by decide : "name".toList ≠ []),
        List.all_eq_true.1 (rfl : "name".toList.all Cursor.isKeyChar = true), hprintable⟩
    have hname : name ≠ "" := by
      rintro rfl
      exact hfile.isName.ne_nil rfl
    refine ⟨found, Declaration.head ⟨name, typeName, Quotation.bindings text⟩, hfound, hkind, rfl,
      hread (fun waited offset tail htail => ?_) hending⟩
    exact Cursor.pieceAt_of_word hword (hbinding.writtenAs hentry hwritten htail)
      (hbinding.exists_head hentry.key_ne_nil) hvalue hname hget

/-! ### Showing it -/

/-- A text that no markup begins in. -/
def IsPlainText (text : String) : Prop :=
  text = "" ∨ StandsAlone text

theorem IsPlainText.plain {text : String} (h : IsPlainText text) : Cursor.Plain text.toList := by
  rcases h with rfl | ⟨_, _, _, _, hparse, htree⟩
  · intro cs hcs hne
    exact absurd (List.suffix_nil.1 hcs) hne
  · exact (NodeTree.plain_of_parse hparse htree).1

/-- The nodes of a text, which are none for the empty text. -/
def textNodes (offset : Nat) (text : String) : List Node :=
  NodeTree.addText offset text.toList []

theorem addText_eq (offset : Nat) (text : String) (nodes : List Node) :
    NodeTree.addText offset text.toList nodes = textNodes offset text ++ nodes := by
  unfold textNodes NodeTree.addText
  split <;> rfl

theorem reverse_textNodes (offset : Nat) (text : String) :
    (textNodes offset text).reverse = textNodes offset text := by
  unfold textNodes NodeTree.addText
  split <;> rfl

/-- A template of one tag between texts. -/
theorem WritesLiteral.compile {elements : ElementRegistry} {text first last : String}
    {tag file : List Char} (h : WritesLiteral elements text tag file) (hfirst : IsPlainText first)
    (hlast : IsPlainText last) : ∃ head span stop whole,
      elements.kind? head.space head.typeName = some .string ∧
      head.bindings = Quotation.bindings text ∧
      NodeTree.compile (String.ofList (first.toList ++ (tag ++ last.toList))) (String.ofList file) =
        .ok ⟨textNodes 0 first ++ .element head [] span :: textNodes stop last, whole⟩ := by
  obtain ⟨found, head, hfile, hkind, hbindings, hread⟩ := h.readAll
  have hparse : Declarations.parse (String.ofList file) = .ok found := by
    rw [Declarations.parse, String.toList_ofList, hfile]
    rfl
  obtain ⟨hstarts, htag⟩ := hread [] (0 + byteLength first.toList) last.toList
  let start := 0 + byteLength first.toList
  let stop := start + byteLength tag
  let element : Node := .element head [] (Span.ofBounds start stop)
  have hnodes := calc
    NodeTree.readAll found [] [] ⟨0, first.toList ++ (tag ++ last.toList)⟩
      = NodeTree.readAll found [] (NodeTree.addText 0 first.toList [])
          ⟨start, tag ++ last.toList⟩ := NodeTree.readAll_text hfirst.plain nofun hstarts
    _ = NodeTree.readAll found [] (element :: NodeTree.addText 0 first.toList [])
          ⟨stop, last.toList ++ []⟩ := by rw [htag, List.append_nil]
    _ = NodeTree.readAll found [] (NodeTree.addText stop last.toList
          (element :: NodeTree.addText 0 first.toList [])) ⟨stop + byteLength last.toList, []⟩ :=
        NodeTree.readAll_text hlast.plain nofun rfl
    _ = .ok (textNodes 0 first ++ element :: textNodes stop last) := by
        rw [NodeTree.readAll_nil, addText_eq, addText_eq]
        simp [reverse_textNodes]
  refine ⟨head, Span.ofBounds start stop, stop,
    Span.ofBounds 0 (byteLength (first.toList ++ (tag ++ last.toList))), hkind, hbindings, ?_⟩
  rw [NodeTree.compile, hparse]
  dsimp only
  rw [NodeTree.parse, NodeTree.read, String.toList_ofList, hnodes]
  rfl

/-! ### Building it -/

/-- The elements of a text, which are none for the empty text. -/
def textElements (text : String) : List Element :=
  if text = "" then [] else [.text text]

theorem textElements_of_ne {text : String} (h : text ≠ "") : textElements text = [.text text] :=
  if_neg h

theorem textNodes_of_ne (offset : Nat) {text : String} (h : text ≠ "") :
    textNodes offset text =
      [.text text (Span.ofBounds offset (offset + byteLength text.toList))] := by
  have hne : text.toList.isEmpty = false := by simpa using h
  rw [textNodes, NodeTree.addText, hne, if_neg Bool.false_ne_true, String.ofList_toList]

theorem Engine.buildNodes_textNodes (engine : Engine) (template : String) (address : List Nat)
    (i offset : Nat) (text : String) (rest : List Node) :
    engine.buildNodes template address i (textNodes offset text ++ rest) =
      (engine.buildNodes template address (i + (textElements text).length) rest).map
        (textElements text ++ ·) := by
  by_cases htext : text = ""
  · subst htext
    change engine.buildNodes template address i rest = _
    cases h : engine.buildNodes template address i rest <;> simp [textElements, h, Except.map]
  · rw [textNodes_of_ne offset htext, textElements_of_ne htext, List.singleton_append,
      Engine.buildNodes, Engine.buildNode]
    rfl

theorem Engine.buildNode_literal {engine : Engine} {head : ElementHead} {text : String}
    (hkind : engine.elements.kind? head.space head.typeName = some .string)
    (hbindings : head.bindings = Quotation.bindings text) (template : String) (address : List Nat)
    (span : Span) : engine.buildNode template address (.element head [] span) =
      .ok (.tag ⟨template, address⟩ (.string (.constant (.text text)) none none) none) := by
  have hread : Engine.readBindings head.typeName head.isInline head.bindings =
      .ok [("value", .constant (.text text))] := by
    rw [hbindings, Quotation.bindings, Engine.readBindings, Association.ofBinding_literal]
    rfl
  rw [Engine.buildNode, hread]
  change engine.resolve _ _ _ _ = _
  simp only [Engine.resolve, hkind]
  rfl

theorem Engine.buildNodes_literal {engine : Engine} {head : ElementHead} {text : String}
    (hkind : engine.elements.kind? head.space head.typeName = some .string)
    (hbindings : head.bindings = Quotation.bindings text) (template first last : String)
    (span : Span) (stop : Nat) : ∃ site, engine.buildNodes template [] 0
      (textNodes 0 first ++ .element head [] span :: textNodes stop last) =
        .ok (textElements first ++
          .tag site (.string (.constant (.text text)) none none) none :: textElements last) := by
  have hlater (i : Nat) : engine.buildNodes template [] i (textNodes stop last) =
      .ok (textElements last) := by
    have hnodes := engine.buildNodes_textNodes template [] i stop last []
    rw [List.append_nil] at hnodes
    rw [hnodes, Engine.buildNodes, Except.map, List.append_nil]
  refine ⟨⟨template, [] ++ [0 + (textElements first).length]⟩, ?_⟩
  rw [Engine.buildNodes_textNodes, Engine.buildNodes, Engine.buildNode_literal hkind hbindings,
    hlater]
  rfl

/-! ### Showing it -/

section Showing

open Walk

variable {task : Task} {expand : Element → Walk (Option Answer)}

/-- A visit goes on to the next element and adds just this text to the response. -/
def Element.Displays (task : Task) (expand : Element → Walk (Option Answer)) (e : Element)
    (text : String) : Prop :=
  ∀ s : WalkState, ∃ s', (e.visit task expand).runFrom s = (.ok none, s') ∧ s'.path = s.path ∧
    s'.response.content = s.response.content ++ text

theorem Element.displays_text (hphase : task.phase = .render) (text : String) :
    (Element.text text).Displays task expand text := by
  intro s
  rw [Element.visit, runFrom_bind_ok (runFrom_enterElement task _ s), if_pos hphase,
    runFrom_bind_ok (runFrom_print text _), runFrom_bind_ok (runFrom_record _ _)]
  exact ⟨_, rfl, rfl, rfl⟩

/-- Without a fallback a string element prints its value. -/
theorem Tag.renderString_none (value : Association) (escapes : Option Association) :
    Tag.renderString value none escapes = Walk.read value >>= Tag.printShown escapes := by
  unfold Tag.renderString
  refine bind_congr fun written => ?_
  split
  · contradiction
  · contradiction
  · rfl

theorem Element.displays_literal (hphase : task.phase = .render) (site : Site) (text : String) :
    (Element.tag site (.string (.constant (.text text)) none none) none).Displays task expand
      (Html.escape text) := by
  intro s
  have hprint (s : WalkState) :
      (Tag.renderString (.constant (.text text)) none none).runFrom s =
        (.ok (), { s with response := s.response.append (Html.escape text) }) := by
    rw [Tag.renderString_none, runFrom_bind_ok (runFrom_read _ s), Scope.read_constant]
    rfl
  rw [Element.visit, runFrom_bind_ok (runFrom_enterElement task _ s)]
  simp only [Tag.visit, hphase, Tag.without]
  rw [bind_assoc, runFrom_bind_ok (hprint _)]
  exact ⟨_, rfl, rfl, rfl⟩

theorem Element.displays_textElements (hphase : task.phase = .render) (text : String) :
    ∃ texts, texts.length ≤ 1 ∧ texts.foldr (· ++ ·) "" = text ∧
      List.Forall₂ (Element.Displays task expand) (textElements text) texts := by
  by_cases htext : text = ""
  · subst htext
    exact ⟨[], by simp, rfl, .nil⟩
  · rw [textElements_of_ne htext]
    exact ⟨[text], by simp, by simp, .cons (Element.displays_text hphase text) .nil⟩

/-- Elements one after another show their texts one after another, as far as there are indices
for them. -/
theorem Element.displays_visitAll {es : List Element} {texts : List String}
    (h : List.Forall₂ (Element.Displays task expand) es texts) (path : ElementPath) (i : Nat)
    (s : WalkState) (hs : s.path = path.enter (.ofNat i))
    (hroom : i + texts.length ≤ ElementPath.maxIndex.toNat) : ∃ s' j,
      (Element.visitAll task expand es).runFrom s = (.ok none, s') ∧ s'.path = path.enter j ∧
        s'.response.content = s.response.content ++ texts.foldr (· ++ ·) "" := by
  induction h generalizing i s with
  | nil => exact ⟨s, _, rfl, hs, (String.append_empty).symm⟩
  | @cons e text es texts he _ ih =>
    rw [List.length_cons] at hroom
    obtain ⟨s₁, hrun, hpath, hcontent⟩ := he s
    have hnext : s₁.path.next? = some (path.enter (.ofNat (i + 1))) := by
      rw [hpath, hs]
      exact path.next?_enter_ofNat (by omega)
    obtain ⟨s₂, j, hrest, hend, hmore⟩ :=
      ih (i + 1) { s₁ with path := path.enter (.ofNat (i + 1)) } rfl (by omega)
    refine ⟨s₂, j, ?_, hend, ?_⟩
    · rw [Element.visitAll, runFrom_bind_ok hrun]
      dsimp only
      rw [runFrom_bind_ok (runFrom_nextSibling hnext)]
      exact hrest
    · rw [hmore, List.foldr_cons, ← String.append_assoc, ← hcontent]

/-- A page of such elements shows their texts. -/
theorem Template.displays_wholePage {template : Template} {texts : List String} {limit : Nat}
    {s : WalkState} (hshows : List.Forall₂ (Element.Displays task (Element.visitWithin task limit))
      template.children texts) (hroom : texts.length ≤ ElementPath.maxIndex.toNat)
    (htemplate : s.scope.page.template = template) :
    ∃ rendered, (Walk.wholePage task (limit + 1)).runFrom s = (.ok none, rendered) ∧
      rendered.response.content = s.response.content ++ texts.foldr (· ++ ·) "" := by
  subst htemplate
  let start : WalkState := { s with path := .empty, journal := [] }
  let entered := start.entered task (.group s.scope.page.template.children)
  let inside : WalkState := { entered with path := ElementPath.empty.enter 0 }
  obtain ⟨s', j, hrun, hpath, hcontent⟩ := Element.displays_visitAll hshows .empty 0 inside rfl
    (by omega)
  have henter : (enterElement task (.group s.scope.page.template.children)).runFrom
      { s with path := .empty, journal := [] } = (.ok (), entered) := rfl
  have hbranch : (enterBranch 0).runFrom entered = (.ok (), inside) := rfl
  rw [runFrom_wholePage_succ, Template.root, Element.visit, runFrom_bind_ok henter,
    runFrom_bind_ok hbranch]
  have hleave : s'.path.leave? = some .empty := by rw [hpath, ElementPath.leave?_enter]
  rw [runFrom_bind_ok hrun, runFrom_bind_ok (runFrom_leaveBranch hleave),
    runFrom_bind_ok (runFrom_record _ _)]
  exact ⟨_, rfl, hcontent⟩

end Showing

/-- A text that is written as a double-quoted literal, on a tag or in a declaration that a tag
names, between any plain texts: the page compiles, the value of its string element is the constant text,
and every rendering prints the escaped text between the texts around it. -/
theorem Engine.literal_shown {engine : Engine} {page text first last : String}
    {tag file : List Char} {declarations : Option String}
    (htag : WritesLiteral engine.elements text tag file)
    (hfirst : IsPlainText first) (hlast : IsPlainText last)
    (htemplate : engine.loader.load (Engine.templateFile page) =
      .ok (some (String.ofList (first.toList ++ (tag ++ last.toList)))))
    (hdeclarations : engine.loader.load (Engine.declarationFile page) = .ok declarations)
    (hfile : declarations.getD "" = String.ofList file) :
    ∃ template site, engine.compile page = .ok template ∧
      template.children = textElements first ++
        .tag site (.string (.constant (.text text)) none none) none :: textElements last ∧
      ∀ (task : Task) (limit : Nat) (s : WalkState), task.phase = .render →
        s.scope.page.template = template →
        ∃ rendered, (Walk.wholePage task (limit + 1)).runFrom s = (.ok none, rendered) ∧
          rendered.response.content =
            s.response.content ++ (first ++ (Html.escape text ++ last)) := by
  obtain ⟨head, span, stop, whole, hkind, hbindings, hcompile⟩ := htag.compile hfirst hlast
  obtain ⟨site, hbuilt⟩ := engine.buildNodes_literal hkind hbindings page first last span stop
  refine ⟨⟨page, _⟩, site, ?_, rfl, fun task limit s hphase htemplate => ?_⟩
  · unfold Engine.compile
    rw [htemplate, hdeclarations]
    dsimp only [bind, Except.bind]
    rw [hfile, hcompile]
    dsimp only
    rw [Engine.build, hbuilt]
    rfl
  · obtain ⟨before, hfew, hbefore, hfirst⟩ := Element.displays_textElements hphase first
    obtain ⟨after, hfew', hafter, hlast⟩ := Element.displays_textElements hphase last
    have hroom : (before ++ Html.escape text :: after).length ≤ ElementPath.maxIndex.toNat := by
      have hmax : ElementPath.maxIndex.toNat = 4294967295 := rfl
      rw [List.length_append, List.length_cons]
      omega
    obtain ⟨rendered, hrun, hcontent⟩ := Template.displays_wholePage
      (List.rel_append hfirst (.cons (Element.displays_literal hphase site text) hlast)) hroom
      htemplate
    refine ⟨rendered, hrun, hcontent.trans ?_⟩
    have hjoin (texts : List String) (rest : String) :
        texts.foldr (· ++ ·) rest = texts.foldr (· ++ ·) "" ++ rest := by
      induction texts with
      | nil => simp
      | cons text texts ih => simp [ih, String.append_assoc]
    rw [List.foldr_append, List.foldr_cons, hjoin before, hbefore, hafter]

namespace LiteralPage

/-- A text of what literals, declarations and tags end with. -/
def text : String := "a\"$\\\x7d;\n</b>"

/-- The parts of a binding of the text. -/
def parts : List (List Char) := ["value".toList, ['='], (Quotation.literal text).toList]

def inlineTag : List Char :=
  '<' :: ("wo".toList ++ ':' :: "str".toList ++ parts.flatMap ('\n' :: ·)) ++ "></wo:str >".toList

def before : List Char := "// first \x7b\nOther: String \x7b value = \"x\" \x7d\n".toList

def declaration : List Char :=
  ["Shown".toList, [':'], "String".toList, ['\x7b'], "value".toList, ['='],
    (Quotation.literal text).toList, [';'], ['\x7d']].flatMap (' ' :: ·)

def after : List Char := "Last: text\x7b\x7d".toList

def legacyTag : List Char :=
  '<' :: ("WebObject".toList ++ ["name".toList, ['='], "Shown".toList].flatMap (' ' :: ·)) ++
    "/>".toList

theorem writes_inlineTag : WritesLiteral .standard text inlineTag [] := by
  have hword : IsTagWord "wo" "str" := by
    refine ⟨by decide, List.all_eq_true.1 (by decide), ⟨'s', rfl, rfl⟩,
      List.all_eq_true.1 (by decide), fun d => ?_⟩
    cases d <;> decide
  have hmatches : Closer.Matches ⟨"wo".toList ++ ':' :: "str".toList, false⟩ "wo:str".toList := rfl
  have hblank : Spaces [' '] := List.all_eq_true.1 rfl
  have hfile : Declarations.read [] = .ok [] := by decide +kernel
  exact .inline rfl hword ⟨.flatMap_cons rfl parts, by rintro c ⟨⟩; rfl⟩
    (.closingTag hmatches hblank) hfile

theorem declares_literal :
    DeclaresLiteral "Shown" "String" text before declaration [';'] after where
  isName := ⟨by decide, List.all_eq_true.1 (by decide)⟩
  isType := ⟨by decide, List.all_eq_true.1 (by decide)⟩
  spaced := .flatMap_cons rfl _
  trailing := fun c hc => .inl (List.mem_singleton.1 hc)
  endsLine := .inr rfl
  others := by
    refine ⟨[("Other", ⟨"Other", "String", [("value", .quoted "\"x\"")]⟩)],
      [("Last", ⟨"Last", "text", []⟩)], ?_, ?_, rfl, ?_⟩
    · decide +kernel
    · decide +kernel
    · intro other hother
      obtain rfl : other = "Last" := by
        by_contra hne
        simp [Dictionary.contains, Dictionary.get?, hne] at hother
      exact ⟨by decide, rfl⟩

theorem writes_legacyTag :
    WritesLiteral .standard text legacyTag (before ++ (declaration ++ after)) := by
  have hprintable : (BindingValue.bare "Shown").Printable :=
    ⟨by decide, fun c hc => Option.some.inj hc ▸ rfl, List.all_eq_true.1 rfl⟩
  exact .declared rfl (List.mem_cons_self ..) rfl hprintable rfl
    ⟨.flatMap_cons rfl _, by rintro c ⟨⟩; rfl⟩ .atOnce declares_literal

/-- The page with a tag and a declaration file. -/
def engine (tag file : List Char) : Engine :=
  ⟨.standard, [], .memory [("Page.html",
    String.ofList ("a < b".toList ++ (tag ++ "</b>".toList))), ("Page.wod", String.ofList file)]⟩

/-- The page compiles to the text between two others, and shows it escaped. -/
def ShowsText (engine : Engine) : Prop :=
  ∃ template site, engine.compile "Page" = .ok template ∧
    template.children = [.text "a < b",
      .tag site (.string (.constant (.text text)) none none) none, .text "</b>"] ∧
    ∀ (task : Task) (limit : Nat) (s : WalkState), task.phase = .render →
      s.scope.page.template = template →
      ∃ rendered, (Walk.wholePage task (limit + 1)).runFrom s = (.ok none, rendered) ∧
        rendered.response.content = s.response.content ++
          ("a < b" ++ ("a&quot;$\\\x7d;\n&lt;/b&gt;" ++ "</b>"))

theorem isPlainText_around : IsPlainText "a < b" ∧ IsPlainText "</b>" := by
  have hbefore : readsAsText [] "a < b" = true := by decide +kernel
  have hafter : readsAsText [] "</b>" = true := by decide +kernel
  exact ⟨.inr (standsAlone_of_readsAsText hbefore), .inr (standsAlone_of_readsAsText hafter)⟩

end LiteralPage

open LiteralPage in
theorem literal_shown_inline_and_declared :
    (WritesLiteral .standard text inlineTag [] ∧ ShowsText (engine inlineTag [])) ∧
      WritesLiteral .standard text legacyTag (before ++ (declaration ++ after)) ∧
        ShowsText (engine legacyTag (before ++ (declaration ++ after))) := by
  obtain ⟨hbefore, hafter⟩ := isPlainText_around
  refine ⟨⟨writes_inlineTag, ?_⟩, writes_legacyTag, ?_⟩
  · exact Engine.literal_shown writes_inlineTag hbefore hafter rfl rfl rfl
  · exact Engine.literal_shown writes_legacyTag hbefore hafter rfl rfl rfl

end PageEngine
