import PageEngine.Markup.Template

/-! How a template is written. The texts of tags are described by a grammar of their own, apart
from the readers: in an opening tag only the quotes of a value can hold a `>`, so the tag ends
at the first other one. A node is spelled by a text that its span covers, and the children of
an element by what stands between its tags. -/

namespace PageEngine

/-! ### Tags -/

/-- A text of blanks only. -/
def Spaces (cs : List Char) : Prop :=
  ∀ c ∈ cs, Text.isMarkupSpace c = true

/-- A text without the quote, unless a backslash stands before it. -/
def Unquoted (quote : Char) : List Char → Prop
  | [] => True
  | '\\' :: _ :: rest => Unquoted quote rest
  | c :: rest => c ≠ '\\' ∧ c ≠ quote ∧ Unquoted quote rest

/-- The value of a binding: in quotes, or up to a blank, `>` or `/`. -/
inductive ValueText : List Char → Prop
  | quoted {quote : Char} {body : List Char} (hquote : isQuote quote = true)
    (hbody : Unquoted quote body) : ValueText (quote :: (body ++ [quote]))
  | bare {text : List Char} (hne : text ≠ []) (hstart : ∀ c ∈ text.head?, isQuote c = false)
    (h : ∀ c ∈ text, Cursor.isBareChar c = true) : ValueText text

/-- A key, and its value if there is an equals sign. -/
inductive BindingText : List Char → Prop
  | present {key blanks : List Char} (hne : key ≠ [])
    (hkey : ∀ c ∈ key, Cursor.isKeyChar c = true) (hblanks : Spaces blanks) :
    BindingText (key ++ blanks)
  | valued {key before after value : List Char} (hne : key ≠ [])
    (hkey : ∀ c ∈ key, Cursor.isKeyChar c = true) (hbefore : Spaces before)
    (hafter : Spaces after) (hvalue : ValueText value) :
    BindingText (key ++ before ++ '=' :: (after ++ value))

/-- The bindings of a tag, with blanks around them. -/
inductive BindingsText : List Char → Prop
  | done {blanks : List Char} (h : Spaces blanks) : BindingsText blanks
  | more {blanks first rest : List Char} (hblanks : Spaces blanks) (hfirst : BindingText first)
    (hrest : BindingsText rest) : BindingsText (blanks ++ first ++ rest)

theorem Spaces.append {first rest : List Char} (h : Spaces first) (h' : Spaces rest) :
    Spaces (first ++ rest) := fun c hc => (List.mem_append.1 hc).elim (h c) (h' c)

theorem BindingsText.append_spaces {text blanks : List Char} (h : BindingsText text)
    (hblanks : Spaces blanks) : BindingsText (text ++ blanks) := by
  induction h with
  | done h => exact .done (h.append hblanks)
  | @more before first rest hbefore hfirst hrest ih =>
    rw [List.append_assoc]
    exact .more hbefore hfirst ih

namespace ElementHead

/-- The word that an opening tag begins with: namespace and type, or a keyword in any case. -/
def OpensWith (head : ElementHead) (word : List Char) : Prop :=
  if head.isInline then word = head.space.toList ++ ':' :: head.typeName.toList
  else String.ofList (word.map Char.toLower) ∈ legacyKeywords

/-- The word of the closing tag: the same, for a keyword in any case. -/
def ClosesWith (head : ElementHead) (word name : List Char) : Prop :=
  if head.isInline then name = word else name.map Char.toLower = word.map Char.toLower

end ElementHead

/-- An opening tag of an element up to the end of its bindings. -/
def TagText (head : ElementHead) (word tag : List Char) : Prop :=
  head.OpensWith word ∧ ∃ bindings, BindingsText bindings ∧ tag = '<' :: (word ++ bindings)

/-! ### Nodes -/

namespace Node

def isText : Node → Bool
  | .text .. => true
  | _ => false

mutual

/-- A text spells a node that begins at an offset. -/
def SpelledBy (offset : Nat) (cs : List Char) : Node → Prop
  | .text shown span => cs ≠ [] ∧ shown.toList = cs ∧
    span = Span.ofBounds offset (offset + Text.byteLength cs)
  | .comment content span => cs ≠ [] ∧ content.toList <:+: cs ∧
    span = Span.ofBounds offset (offset + Text.byteLength cs)
  | .raw content span => cs ≠ [] ∧ content.toList <:+: cs ∧
    span = Span.ofBounds offset (offset + Text.byteLength cs)
  | .element head children span =>
    span = Span.ofBounds offset (offset + Text.byteLength cs) ∧
    ∃ word tag, TagText head word tag ∧
      (cs = tag ++ ['/', '>'] ∧ children = [] ∨
        ∃ inner name blanks, cs = tag ++ '>' :: (inner ++ '<' :: '/' :: (name ++ (blanks ++ ['>']))) ∧
          head.ClosesWith word name ∧ Spaces blanks ∧
          AllSpelledBy (offset + Text.byteLength (tag ++ ['>'])) inner children)

/-- A text spells nodes one after another; texts are as long as they can be. -/
def AllSpelledBy (offset : Nat) (cs : List Char) : List Node → Prop
  | [] => cs = []
  | n :: rest => ∃ first others, cs = first ++ others ∧ SpelledBy offset first n ∧
    AllSpelledBy (offset + Text.byteLength first) others rest ∧
    (n.isText = true → ∀ m ∈ rest.head?, m.isText = false)

end

end Node

end PageEngine
