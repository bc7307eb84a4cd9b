import PageEngine.Component.Synchronization
import PageEngine.Engine
import PageEngine.Walk.SwitchNumbers
import PageEngine.Web.ActionUrl
import PageEngine.Web.Html

/-! What a walk over a page carries along, and its steps. A walk may stop with an error; the
state stays as it was at that moment. A journal keeps every element and every component that
was entered or left, every action that was performed, and every transfer of values. -/

namespace PageEngine

/-- What all walks of an engine share: resolved templates and the numbers of switches. -/
structure Memory where
  templates : TemplateCache
  switches : SwitchNumbers

def Memory.empty : Memory := ⟨[], []⟩

/-- The number of context ids that a session has given out; they are counted from one. -/
structure ContextIds where
  last : Nat
  deriving DecidableEq, Repr, Inhabited

/-- A new context id. -/
def ContextIds.next (ids : ContextIds) : String × ContextIds :=
  (toString (ids.last + 1), ⟨ids.last + 1⟩)

/-- What a walk is to do. -/
structure Task where
  engine : Engine
  request : Request
  /-- The element that the request was sent from. -/
  sender : Option ElementPath
  phase : Phase

/-- An event of a walk. What concerns components is kept with the scope of that moment. -/
inductive Step where
  | enter (element : Element) (standing : Standing) (scope : Scope)
  /-- A component is asked for at a path, where `found` was placed before. -/
  | place (reference : Reference) (path : ElementPath) (scope : Scope) (found : Option Instance)
  /-- The element or component entered last is left. -/
  | leave
  /-- The element entered last performs an action or goes to a page. -/
  | perform (target : Association)
  /-- The element entered last stores a value. -/
  | write (target : Association) (value : Value) (scope : Scope)
  /-- The current component takes over what its bindings read at its caller. -/
  | pull (scope : Scope)
  /-- The current component gives the values of its bindings back to its caller. -/
  | push (scope : Scope)

/-- What the request is answered with. -/
inductive Answer where
  | page (component : Instance)
  | pageNamed (name : String)
  | response (response : Response)

structure WalkState where
  memory : Memory
  ids : ContextIds
  path : ElementPath
  /-- The id that the response is known by, once it is needed. -/
  contextId : Option String
  scope : Scope
  inForm : Bool
  response : Response
  /-- The events of the walk so far, the latest first. -/
  journal : List Step

/-- The state at the beginning of a walk over a page. -/
def WalkState.ofPage (memory : Memory) (ids : ContextIds) (page : Instance) : WalkState :=
  ⟨memory, ids, .empty, none, .ofPage page, false, .empty, []⟩

/-- A computation on the state of a walk that may stop with an error. -/
abbrev Walk := ExceptT EngineError (StateM WalkState)

namespace Walk

variable {α : Type}

/-- Run two computations; the second also runs when the first one fails, and its own error
counts more. -/
def settle (x : Walk α) (after : Walk Unit) : Walk α := do
  let result ← ExceptT.lift x.run
  after
  match result with
  | .ok a => return a
  | .error e => throw e

/-- Record an event. -/
def record (step : Step) : Walk Unit :=
  modify fun s => { s with journal := step :: s.journal }

/-! ### The path -/

def enterBranch (index : UInt32) : Walk Unit :=
  modify fun s => { s with path := s.path.enter index }

def leaveBranch : Walk Unit := do
  match (← get).path.leave? with
  | some path => modify fun s => { s with path }
  | none => throw (.state .pathUnderflow)

/-- Go on to the next sibling. A walk that runs out of indices stops: no two siblings are given
one path. -/
def nextSibling : Walk Unit := do
  match (← get).path.next? with
  | some path => modify fun s => { s with path }
  | none => throw .indexOverflow

/-- Begin at the page, with nothing in the journal. -/
def restart : Walk Unit :=
  modify fun s => { s with path := .empty, journal := [] }

def pathText : Walk String := do
  return (← get).path.text

/-- Whether the request was sent from the current element. -/
def isSender (task : Task) : Walk Bool := do
  return task.sender == some (← get).path

/-- What can be seen from here. -/
def standing (task : Task) : Walk Standing := do
  let s ← get
  return ⟨task.phase, s.path, s.inForm, s.scope.depth, s.scope.current.name,
    task.sender == some s.path⟩

/-- Record that an element is entered, and what can be seen from it. -/
def enterElement (task : Task) (element : Element) : Walk Unit := do
  record (.enter element (← standing task) (← get).scope)

/-! ### Components -/

/-- Change the scope, or stop. -/
def liftScope (f : Scope → Except StateError Scope) : Walk Unit := do
  match f (← get).scope with
  | .ok scope => modify fun s => { s with scope }
  | .error e => throw (.state e)

/-- Change the scope unless there is nothing left to pop. -/
def popScope (f : Scope → Option Scope) : Walk Unit :=
  liftScope fun s => (f s).elim (.error .scopeUnderflow) .ok

/-- Read an association as the current component sees it. -/
def read (a : Association) : Walk Value := do
  let s ← get
  return s.scope.read a s.scope.depth

/-- Read an association if it is bound. -/
def read? (a : Option Association) : Walk (Option Value) := do
  match a with
  | none => return none
  | some a => return some (← read a)

/-- Whether an association is bound and true. -/
def flag (a : Option Association) : Walk Bool := do
  return ((← read? a).map Value.isTrue).getD false

def write (a : Association) (v : Value) : Walk Unit := do
  record (.write a v (← get).scope)
  liftScope fun s => s.write a s.depth v

def write? (a : Option Association) (v : Value) : Walk Unit := do
  match a with
  | none => return ()
  | some a => write a v

/-- The template of a component. -/
def template (task : Task) (name : String) : Walk Template := do
  let s ← get
  let (result, templates) := TemplateCache.get task.engine name s.memory.templates
  modify fun s => { s with memory := { s.memory with templates } }
  match result with
  | .ok t => return t
  | .error e => throw e

/-- A new component of a class. -/
def instantiate (task : Task) (name : String) (kind : ComponentClass) : Walk Instance := do
  return .ofClass name kind (← template task name)

/-- Make what an action asked for. -/
def answer (task : Task) : Outcome → Walk (Option Answer)
  | .stay => return none
  | .pageNamed name => return some (.pageNamed name)
  | .page name none => return some (.page (← instantiate task name (task.engine.classOf name)))
  | .page name (some values) => return some (.page (← instantiate task name (.plain values)))
  | .respond response => return some (.response response)

/-- Perform what an association leads to. -/
def invoke (task : Task) (a : Association) : Walk (Option Answer) := do
  record (.perform a)
  let s ← get
  let (outcome, scope) := s.scope.invoke a s.scope.depth
  modify fun s => { s with scope }
  match outcome with
  | .ok outcome => answer task outcome
  | .error e => throw e

/-! ### Output -/

def print (text : String) : Walk Unit :=
  modify fun s => { s with response := s.response.append text }

/-- The context id of the response, taken on first use. -/
def contextId : Walk String := do
  let s ← get
  match s.contextId with
  | some id => return id
  | none =>
    let (id, ids) := s.ids.next
    modify fun s => { s with ids, contextId := some id }
    return id

/-- The address of the current element. -/
def actionUrl : Walk String := do
  let id ← contextId
  return ActionUrl.text ⟨id, (← get).path⟩

/-- The values of bindings, in order of their names. -/
def attributes (bindings : Associations) : Walk Html.Attributes := do
  let s ← get
  return bindings.map fun (name, a) => (name, s.scope.read a s.scope.depth)

/-- The one value submitted under a name; the empty text counts as null. -/
def formValue (task : Task) (name : String) : Walk (Option Value) :=
  match task.request.formValuesOf name with
  | [] => return none
  | [value] => return some (if value.isEmpty then .null else .text value)
  | values => throw (.state (.multipleFormValues name values.length))

end Walk

end PageEngine
