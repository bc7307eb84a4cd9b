import PageEngine.Bytes.Declarations
import PageEngine.Bytes.Markup
import PageEngine.Markup.Template

/-! A template read by bytes. What stands at a `<` is a closing tag, a directive, an element, or
text; the text before it is cut out of the source once it is known not to be text itself. The
children of an element are read by a computation that calls itself for those of the elements in
it. -/

namespace PageEngine.ByteReader

/-- The length of a `name:` that begins the bytes. -/
def namespacePrefix? (bytes : List UInt8) : Option Nat :=
  let letters := (bytes.takeWhile (Text.byteIs Char.isAlpha)).length
  if letters ≠ 0 ∧ bytes[letters]?.any (Text.byteIs (· == ':')) then some (letters + 1) else none

variable (source : ByteReader)

/-- Put the text from `textStart` on, if any, among the nodes gathered backwards. -/
def flushText (textStart pos : Nat) (nodes : List Node) : Checked (List Node) :=
  if textStart < pos then do
    let text ← cutOut source textStart pos
    return .text (String.ofList text) (Span.ofBounds textStart pos) :: nodes
  else return nodes

/-! ### Closing tags -/

/-- Whether a closing tag is the one that is waited for. -/
def closesElement (closer : Closer) (pos : Nat) : Checked Bool :=
  wordAt source closer.anyCase closer.name endsCloser (advance source 2 pos)

/-- The position after the closing tag. -/
def closingTag (closer : Closer) (pos : Nat) : Checked Nat :=
  expect source '>' (skipSpace source (advance source (2 + Text.byteLength closer.name) pos))

def strayClosing (closer : Option Closer) (pos : Nat) : Checked Unit := do
  let after ← bytesFrom source (pos + 2)
  let spaces := (after.takeWhile (Text.byteIs Text.isMarkupSpace)).length
  if spaces ≠ 0 ∧ (namespacePrefix? (after.drop spaces)).isSome then
    throw ⟨.spaceAfterClosingBracket, pos⟩
  else
    match namespacePrefix? after with
    | none => return ()
    | some size =>
      let size := size + ((after.drop size).takeWhile (Text.byteIs isIdentifierChar)).length
      let rest ← cutOut source pos (Text.byteLength source)
      let name ← cutOut rest 2 (2 + size)
      match closer with
      | some closer => throw ⟨.mismatchedClosingTag (String.ofList closer.name), pos⟩
      | none => throw ⟨.unopenedClosingTag (String.ofList name), pos⟩

/-! ### Opening tags -/

/-- The end of an opening tag, and whether the element is without content. -/
def tagEnd (pos : Nat) : Checked (Bool × Nat) := do
  let pos := skipSpace source pos
  if isAt source (· == '/') pos then return (true, ← expect source '>' (advance source 1 pos))
  else return (false, ← expect source '>' pos)

/-- The head of an element with a namespace; a type was looked for before. -/
def inlineHead (pos : Nat) : Checked ((ElementHead × Closer) × Nat) := do
  let (space, pos) ← takeRun source (Text.byteIs Char.isAlpha) (advance source 1 pos)
  let (typeName, pos) ← takeRun source (Text.byteIs isIdentifierChar) (advance source 1 pos)
  if typeName.isEmpty then .stuck
  else
    let (bindings, pos) ← bindings source [] pos
    let name := String.ofList typeName
    return ((⟨String.ofList space, name, bindings, true, name⟩,
      ⟨space ++ ':' :: typeName, false⟩), pos)

def legacyKeyword? (pos : Nat) : Checked (Option String) :=
  legacyKeywords.findM? fun keyword =>
    wordAt source true keyword.toList Text.isMarkupSpace (advance source 1 pos)

def legacyHead (declarations : Declarations) (keyword : String) (pos : Nat) :
    Checked ((ElementHead × Closer) × Nat) := do
  let (written, after) ← takeRun source (Text.byteIs Char.isAlpha) (advance source 1 pos)
  let (attributes, after) ← bindings source [] after
  let name := ((Dictionary.get? "name" attributes).bind BindingValue.unquoted).getD ""
  if name.isEmpty then throw ⟨.missingLegacyName (String.ofList written), pos⟩
  else
    match Dictionary.get? name declarations with
    | none => throw ⟨.undeclaredElement name, pos⟩
    | some d => return ((d.head, ⟨keyword.toList, true⟩), after)

/-! ### Steps -/

/-- How a sequence of children goes on at a `<`, with the nodes gathered so far. -/
inductive Step where
  /-- As many bytes are text. -/
  | text (width : Nat)
  /-- The closing tag was read. -/
  | closed (nodes : List Node) (after : Nat)
  /-- A child was read that is complete. -/
  | child (nodes : List Node) (after : Nat)
  | opened (nodes : List Node) (head : ElementHead) (closer : Closer) (after : Nat)

def elementStep (textStart pos : Nat) (nodes : List Node)
    (heading : Checked ((ElementHead × Closer) × Nat)) : Checked Step := do
  let nodes ← flushText source textStart pos nodes
  let ((head, closer), after) ← heading
  let (isEmpty, after) ← tagEnd source after
  if isEmpty then return .child (.element head [] (Span.ofBounds pos after) :: nodes) after
  else return .opened nodes head closer after

/-- What is no closing tag that is waited for is text, unless it is surely a slip. -/
def strayStep (closer : Option Closer) (pos : Nat) : Checked Step := do
  strayClosing source closer pos
  return .text 2

def closingStep (textStart pos : Nat) (nodes : List Node) : Option Closer → Checked Step
  | none => strayStep source none pos
  | some closer => do
    if ← closesElement source closer pos then
      let nodes ← flushText source textStart pos nodes
      return .closed nodes (← closingTag source closer pos)
    else strayStep source (some closer) pos

/-- A step at a `<` that no slash follows. -/
def openStep (declarations : Declarations) (textStart pos : Nat) (nodes : List Node) :
    Checked Step := do
  match ← directiveAt? source pos with
  | some d =>
    let nodes ← flushText source textStart pos nodes
    let (node, after) ← directive source d pos
    return .child (node :: nodes) after
  | none =>
    match namespacePrefix? (← bytesFrom source (pos + 1)) with
    | some size =>
      if isAt source Text.isMarkupSpace (pos + 1 + size) then throw ⟨.spaceAfterNamespace, pos⟩
      else if isAt source Char.isAlphanum (pos + 1 + size) then
        elementStep source textStart pos nodes (inlineHead source pos)
      else return .text 1
    | none =>
      match ← legacyKeyword? source pos with
      | some keyword =>
        elementStep source textStart pos nodes (legacyHead source declarations keyword pos)
      | none => return .text 1

def step (declarations : Declarations) (closer : Option Closer) (textStart pos : Nat)
    (nodes : List Node) : Checked Step := do
  if ← startsWith source ['<', '/'] pos then closingStep source textStart pos nodes closer
  else openStep source declarations textStart pos nodes

/-! ### Children -/

/-- The children up to the closing tag, or up to the end if none is waited for. The text that
is being passed began at `textStart`, the element at `openedAt`. -/
def children (source : ByteReader) (declarations : Declarations) (closer : Option Closer)
    (openedAt textStart : Nat) (nodes : List Node) (pos : Nat) : Checked (List Node × Nat) :=
  if Text.byteLength source ≤ pos then
    match closer with
    | some closer => throw ⟨.unclosedElement (String.ofList closer.name), openedAt⟩
    | none => do
      let nodes ← flushText source textStart pos nodes
      return (nodes.reverse, pos)
  else if isAt source (· == '<') pos then do
    match ← step source declarations closer textStart pos nodes with
    | .text width =>
      source |>.children declarations closer openedAt textStart nodes (advance source width pos)
    | .closed nodes after => return (nodes.reverse, after)
    | .child nodes after => source |>.children declarations closer openedAt after nodes after
    | .opened nodes head inner after =>
      let (found, stop) ← source |>.children declarations (some inner) pos after [] after
      source |>.children declarations closer openedAt stop
        (.element head found (Span.ofBounds pos stop) :: nodes) stop
  else source |>.children declarations closer openedAt textStart nodes (advance source 1 pos)
partial_fixpoint

def template (declarations : Declarations) : Checked NodeTree := do
  let (found, _) ← children source declarations none 0 0 [] 0
  return ⟨found, Span.ofBounds 0 (Text.byteLength source)⟩

/-! ### Templates with declarations -/

variable {α : Type}

/-- What was read of a text, or the error at the place of a fault. -/
def located (sourceKind : SourceKind) (source : String) (read : Checked α) :
    ExceptT FormatError Option α :=
  ExceptT.mk (read.run.map (·.mapError (FormatError.ofFault sourceKind source)))

/-- Compile a template together with its declarations, these first. -/
def compile (template declarations : String) : ExceptT FormatError Option NodeTree := do
  let found ← located .declarations declarations (Mask.parse declarations.toList)
  located .template template (ByteReader.template template.toList found)

end PageEngine.ByteReader
