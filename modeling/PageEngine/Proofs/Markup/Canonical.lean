import PageEngine.Proofs.Markup.Grammar

/-! The canonical form of a tree. Every binding stands after one space, an element without
children is written as one tag, and directives are written in small letters. A tree is printable
if each of its parts is a word of the grammar; what a text or the content of a directive may hold
is said without the readers, except that a text must be a text when it is read alone. -/

namespace PageEngine

open Text (byteLength)

/-! ### Bindings -/

namespace BindingValue

/-- What follows the key. -/
def print : BindingValue → List Char
  | .quoted text => '=' :: text.toList
  | .bare text => '=' :: text.toList
  | .present => []

/-- A quoted value stands in equal quotes; a bare one has no quote at its start, and no blank,
`>` or `/` anywhere. -/
def Printable : BindingValue → Prop
  | .quoted text => ∃ quote body, isQuote quote = true ∧ Unquoted quote body ∧
    text.toList = quote :: (body ++ [quote])
  | .bare text => text.toList ≠ [] ∧ (∀ c ∈ text.toList.head?, isQuote c = false) ∧
    ∀ c ∈ text.toList, Cursor.isBareChar c = true
  | .present => True

end BindingValue

namespace Bindings

def print (bindings : Bindings) : List Char :=
  bindings.flatMap fun (key, value) => ' ' :: (key.toList ++ value.print)

/-- A key without a blank, `=`, `>` or `/`, and a value of the grammar. -/
structure PrintableEntry (entry : String × BindingValue) : Prop where
  key_ne_nil : entry.1.toList ≠ []
  key : ∀ c ∈ entry.1.toList, Cursor.isKeyChar c = true
  value : entry.2.Printable

structure Printable (bindings : Bindings) : Prop where
  ordered : Dictionary.Ordered bindings
  entry : ∀ entry ∈ bindings, PrintableEntry entry

@[simp] theorem print_nil : print [] = [] := rfl

@[simp] theorem print_cons (key : String) (value : BindingValue) (rest : Bindings) :
    print ((key, value) :: rest) = ' ' :: (key.toList ++ (value.print ++ print rest)) := by
  simp [print]

end Bindings

/-! ### Tags -/

namespace ElementHead

/-- Namespace and type. -/
def word (head : ElementHead) : List Char :=
  head.space.toList ++ ':' :: head.typeName.toList

/-- The opening tag up to the last binding. -/
def tag (head : ElementHead) : List Char :=
  '<' :: (head.word ++ head.bindings.print)

/-- The closing tag that the element waits for. -/
def closer (head : ElementHead) : Closer :=
  ⟨head.word, false⟩

def closingTag (head : ElementHead) : List Char :=
  '<' :: '/' :: (head.word ++ ['>'])

/-- An inline element with a namespace of letters and a type that is no directive. -/
structure Printable (head : ElementHead) : Prop where
  isInline : head.isInline = true
  declaredName : head.declaredName = head.typeName
  space_ne_nil : head.space.toList ≠ []
  space : ∀ c ∈ head.space.toList, c.isAlpha = true
  typeStart : ∃ c ∈ head.typeName.toList.head?, c.isAlphanum = true
  typeName : ∀ c ∈ head.typeName.toList, isIdentifierChar c = true
  noDirective : ∀ d : Directive, head.word.map Char.toLower ≠ 'p' :: ':' :: d.name.toList
  bindings : head.bindings.Printable

end ElementHead

namespace Directive

def print (d : Directive) (content : List Char) : List Char :=
  d.opener ++ '>' :: (content ++ (d.closer ++ ['>']))

/-- In no letter case does a tag of the directive stand in the text. -/
def AbsentFrom (d : Directive) (content : List Char) : Prop :=
  ∀ before found after, content = before ++ (found ++ after) →
    (found.map Char.toLower = d.opener → endsOpener after = false) ∧
    (found.map Char.toLower = d.closer → endsCloser after = false)

end Directive

/-! ### Trees -/

/-- Alone in a template, the text is one text. -/
def StandsAlone (text : String) : Prop :=
  ∃ declarations tree shown span, NodeTree.parse declarations text = .ok tree ∧
    tree.children = [.text shown span]

/-- Whether the template is read as one text. -/
def readsAsText (declarations : Declarations) (text : String) : Bool :=
  match NodeTree.parse declarations text with
  | .ok ⟨[.text _ _], _⟩ => true
  | _ => false

theorem standsAlone_of_readsAsText {declarations : Declarations} {text : String}
    (h : readsAsText declarations text = true) : StandsAlone text := by
  unfold readsAsText at h
  split at h
  · rename_i shown span whole hparse
    exact ⟨declarations, _, shown, span, hparse, rfl⟩
  · cases h

namespace Node

mutual

/-- The canonical form of a node. -/
def print : Node → List Char
  | .text shown _ => shown.toList
  | .comment content _ => Directive.comment.print content.toList
  | .raw content _ => Directive.raw.print content.toList
  | .element head children _ =>
    head.tag ++
      if children.isEmpty then [' ', '/', '>'] else '>' :: (printAll children ++ head.closingTag)

def printAll : List Node → List Char
  | [] => []
  | n :: rest => print n ++ printAll rest

end

mutual

/-- The same node, with the spans that it has where its canonical form begins at an offset. -/
def placed (offset : Nat) : Node → Node
  | .text shown span =>
    .text shown (Span.ofBounds offset (offset + byteLength (print (.text shown span))))
  | .comment content span =>
    .comment content (Span.ofBounds offset (offset + byteLength (print (.comment content span))))
  | .raw content span =>
    .raw content (Span.ofBounds offset (offset + byteLength (print (.raw content span))))
  | .element head children span =>
    .element head (placedAll (offset + byteLength (head.tag ++ ['>'])) children)
      (Span.ofBounds offset (offset + byteLength (print (.element head children span))))

def placedAll (offset : Nat) : List Node → List Node
  | [] => []
  | n :: rest => placed offset n :: placedAll (offset + byteLength n.print) rest

end

mutual

/-- The parts of the node can be told apart where they are printed. -/
def Printable : Node → Prop
  | .text shown _ => StandsAlone shown
  | .comment content _ => Directive.comment.AbsentFrom content.toList
  | .raw content _ => Directive.raw.AbsentFrom content.toList
  | .element head children _ => head.Printable ∧ AllPrintable children

/-- The nodes are printable, and no text follows a text. -/
def AllPrintable : List Node → Prop
  | [] => True
  | n :: rest => Printable n ∧ AllPrintable rest ∧
    (n.isText = true → ∀ m ∈ rest.head?, m.isText = false)

end

end Node

end PageEngine
