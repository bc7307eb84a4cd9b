import PageEngine.Markup.Piece

/-! Reading a template into its tree. The elements whose closing tags are still to come form
a stack, innermost first, each with the finished nodes before it. Text runs up to the next
piece; an opening tag is pushed, a closing tag turns the nodes gathered since into the
children of the innermost element. -/

namespace PageEngine

/-- An element whose closing tag is still to come. -/
structure OpenElement where
  head : ElementHead
  closer : Closer
  /-- The offset of its opening tag. -/
  offset : Nat
  /-- The finished nodes before it, backwards. -/
  before : List Node
  deriving Repr

namespace NodeTree

/-- Put the text that was read from `start` on, if any, among the nodes gathered backwards. -/
def addText (start : Nat) (text : List Char) (nodes : List Node) : List Node :=
  if text.isEmpty then nodes
  else
    .text (String.ofList text) (Span.ofBounds start (start + Text.byteLength text)) :: nodes

/-- Read the nodes from `c` on, given the open elements and the nodes gathered backwards in the
innermost one. -/
def readAll (declarations : Declarations) (stack : List OpenElement) (nodes : List Node)
    (c : Cursor) : Except Fault (List Node) :=
  let closer := stack.head?.map OpenElement.closer
  match _hscan : Cursor.scan declarations closer c.offset c.rest with
  | (_, .error fault) => .error fault
  | (text, .ok piece) =>
    let start := c.offset + Text.byteLength text
    let nodes := addText c.offset text nodes
    match _hpiece : piece with
    | .finish =>
      match stack with
      | [] => .ok nodes.reverse
      | e :: _ => .error ⟨.unclosedElement (String.ofList e.closer.name), e.offset⟩
    | .closing after =>
      match stack with
      | [] => .ok nodes.reverse
      | e :: outer =>
        let closed := .element e.head nodes.reverse (Span.ofBounds e.offset after.offset)
        readAll declarations outer (closed :: e.before) after
    | .leaf node after => readAll declarations stack (node :: nodes) after
    | .empty head after =>
      let closed := .element head [] (Span.ofBounds start after.offset)
      readAll declarations stack (closed :: nodes) after
    | .opening head closer after =>
      readAll declarations (⟨head, closer, start, nodes⟩ :: stack) [] after
termination_by c.rest.length
decreasing_by
  all_goals
    subst _hpiece
    exact Cursor.length_lt_of_scan _hscan rfl

/-- Read a template with the given declarations; a fault is placed in the template. -/
def read (declarations : Declarations) (source : List Char) : Except Fault NodeTree :=
  (readAll declarations [] [] ⟨0, source⟩).map fun children =>
    ⟨children, Span.ofBounds 0 (Text.byteLength source)⟩

/-- Read a template text with the given declarations. -/
def parse (declarations : Declarations) (source : String) : Except FormatError NodeTree :=
  (read declarations source.toList).mapError (FormatError.ofFault .template source)

theorem parse_eq {declarations : Declarations} (source : String) : parse declarations source =
    match readAll declarations [] [] ⟨0, source.toList⟩ with
    | .ok children => .ok ⟨children, Span.ofBounds 0 (Text.byteLength source.toList)⟩
    | .error fault => .error (FormatError.ofFault .template source fault) := by
  unfold parse read
  cases readAll declarations [] [] ⟨0, source.toList⟩ <;> rfl

/-- A parsed tree has the nodes that are read from the start of its source, and spans all of it. -/
theorem readAll_of_parse {declarations : Declarations} {source : String} {tree : NodeTree}
    (h : parse declarations source = .ok tree) :
    readAll declarations [] [] ⟨0, source.toList⟩ = .ok tree.children ∧
      tree.span = Span.ofBounds 0 (Text.byteLength source.toList) := by
  rw [parse_eq] at h
  split at h
  · rename_i hread
    cases h
    exact ⟨hread, rfl⟩
  · cases h

/-- Read a template together with its declarations, these first. -/
def compile (template declarations : String) : Except FormatError NodeTree :=
  match Declarations.parse declarations with
  | .error e => .error e
  | .ok found => parse found template

end NodeTree

end PageEngine
