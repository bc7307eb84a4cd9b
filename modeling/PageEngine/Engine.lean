import PageEngine.Component.Instance
import PageEngine.Element.Registry
import PageEngine.Markup.Template
import PageEngine.Resource.Loader

/-! The engine resolves templates. Every element of a template is looked up among the
registered kinds first; a name without a kind is a component if it is registered or has a
template of its own. Of several faults the bindings of an element come first, in order of
their names, then the faults inside the element, then those of the element itself. -/

namespace PageEngine

/-- What is fixed while requests are answered. -/
structure Engine where
  elements : ElementRegistry
  components : Dictionary ComponentClass
  loader : Loader

namespace Engine

/-- The file of a template. -/
def templateFile (name : String) : String := name ++ ".html"

/-- The file of the declarations that belong to a template. -/
def declarationFile (name : String) : String := name ++ ".wod"

/-- Whether a name can be placed as a component. -/
def hasComponent (engine : Engine) (name : String) : Bool :=
  Dictionary.contains name engine.components || engine.loader.contains (templateFile name)

/-- The class of a component; without one it is only a template. -/
def classOf (engine : Engine) (name : String) : ComponentClass :=
  (Dictionary.get? name engine.components).getD (.plain [])

/-- The associations of written bindings, in order of their names. -/
def readBindings (element : String) (isInline : Bool) :
    Bindings → Except BindingError Associations
  | [] => .ok []
  | (name, written) :: rest => do
    match Association.ofBinding isInline written with
    | .error cause => .error (.association element name cause)
    | .ok a => return (name, a) :: (← readBindings element isInline rest)

/-- The element that a name with its bindings stands for. -/
def resolve (engine : Engine) (site : Site) (head : ElementHead) (bindings : Associations)
    (content : Option Element) : Except EngineError Element :=
  match engine.elements.kind? head.space head.typeName with
  | some kind =>
    (kind.element site head.typeName bindings content).mapError EngineError.binding
  | none =>
    if engine.hasComponent head.typeName then
      .ok (.tag site (.component head.typeName bindings) content)
    else .error (.lookup (.element head.space head.typeName))

mutual

/-- The element of a node at an address of a template. -/
def buildNode (engine : Engine) (template : String) (address : List Nat) :
    Node → Except EngineError Element
  | .text text _ => .ok (.text text)
  | .raw text _ => .ok (.text text)
  | .comment text _ => .ok (.text ("<!--" ++ text ++ "-->"))
  | .element head children _ => do
    let bindings ← (readBindings head.typeName head.isInline head.bindings).mapError
      EngineError.binding
    let inner ← buildNodes engine template address 0 children
    engine.resolve ⟨template, address⟩ head bindings (Element.content? inner)

/-- The elements of the nodes from the position `i` on. -/
def buildNodes (engine : Engine) (template : String) (address : List Nat) (i : Nat) :
    List Node → Except EngineError (List Element)
  | [] => .ok []
  | node :: rest => do
    let element ← buildNode engine template (address ++ [i]) node
    return element :: (← buildNodes engine template address (i + 1) rest)

end

/-- Resolve a node tree. -/
def build (engine : Engine) (name : String) (tree : NodeTree) : Except EngineError Template :=
  (buildNodes engine name [] 0 tree.children).map fun children => ⟨name, children⟩

/-- Load, read and resolve the template of a component. -/
def compile (engine : Engine) (name : String) : Except EngineError Template := do
  match ← engine.loader.load (templateFile name) with
  | none => .error (.lookup (.template name))
  | some html =>
    let declarations ← engine.loader.load (declarationFile name)
    match NodeTree.compile html (declarations.getD "") with
    | .error e => .error (.format e)
    | .ok tree => engine.build name tree

end Engine

/-- The templates resolved so far, failures included: each name is compiled once. -/
abbrev TemplateCache := Dictionary (Except EngineError Template)

namespace TemplateCache

/-- The template of a component, compiled on first use. -/
def get (engine : Engine) (name : String) (cache : TemplateCache) :
    Except EngineError Template × TemplateCache :=
  match Dictionary.get? name cache with
  | some result => (result, cache)
  | none =>
    let result := engine.compile name
    (result, Dictionary.insert name result cache)

/-- Asking again gives the same answer and changes nothing. -/
theorem get_get (engine : Engine) (name : String) (cache : TemplateCache) :
    get engine name (get engine name cache).2 = get engine name cache := by
  unfold get
  cases h : Dictionary.get? name cache with
  | some result => simp [h]
  | none => simp

end TemplateCache

end PageEngine
