import PageEngine.Markup.Binding
import PageEngine.Source.Span

/-! The tree that a template is read into. Its nodes are stretches of text, the contents of
directives, and elements with their bindings and children. -/

namespace PageEngine

/-- What an opening tag says about its element. -/
structure ElementHead where
  space : String
  typeName : String
  bindings : Bindings
  /-- Whether the bindings stand on the tag itself. -/
  isInline : Bool
  declaredName : String
  deriving DecidableEq, Repr

inductive Node where
  | text (text : String) (span : Span)
  | comment (text : String) (span : Span)
  | raw (text : String) (span : Span)
  | element (head : ElementHead) (children : List Node) (span : Span)
  deriving Repr

namespace Node

def span : Node → Span
  | .text _ s => s
  | .comment _ s => s
  | .raw _ s => s
  | .element _ _ s => s

def children : Node → List Node
  | .element _ children _ => children
  | _ => []

mutual

/-- The number of nodes of a tree. -/
def size : Node → Nat
  | .element _ children _ => sizeAll children + 1
  | _ => 1

def sizeAll : List Node → Nat
  | [] => 0
  | n :: ns => n.size + sizeAll ns

end

theorem sizeAll_append (xs ys : List Node) : sizeAll (xs ++ ys) = sizeAll xs + sizeAll ys := by
  induction xs with
  | nil => simp [sizeAll]
  | cons x xs ih => simp [sizeAll, ih, Nat.add_assoc]

theorem size_eq (n : Node) : n.size = sizeAll n.children + 1 := by
  cases n <;> simp [size, children, sizeAll]

/-- Take a node from the front of the ones still to visit, and visit its children next. -/
def walk : List Node → List Node
  | [] => []
  | n :: waiting => n :: walk (n.children ++ waiting)
termination_by waiting => sizeAll waiting
decreasing_by simp [sizeAll_append, sizeAll, size_eq n]

mutual

/-- A node and everything below it, parents first. -/
def preorder : Node → List Node
  | .text t s => [.text t s]
  | .comment t s => [.comment t s]
  | .raw t s => [.raw t s]
  | .element head children s => .element head children s :: preorderAll children

def preorderAll : List Node → List Node
  | [] => []
  | n :: ns => preorder n ++ preorderAll ns

end

end Node

/-- A whole template: the nodes at the top and the span of the source. -/
structure NodeTree where
  children : List Node
  span : Span
  deriving Repr

/-- Every node of the tree in document order. -/
def NodeTree.descendants (t : NodeTree) : List Node :=
  Node.walk t.children

end PageEngine
