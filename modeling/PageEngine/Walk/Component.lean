import PageEngine.Walk.State

/-! Going into components and out of them. A component that was placed before at the same
path is taken up again if it still has the asked name. Its bindings are read before the
visit, and written back after a visit without error. Content of a caller is visited as the
caller sees it. -/

namespace PageEngine.Walk

variable {α : Type}

/-- The component placed at the current path: the one that is there, if it has the name, and
a new one otherwise. It is taken out of the current component. -/
def placed (task : Task) (reference : Reference) : Walk Instance := do
  let s ← get
  let (found, scope) := s.scope.takeChild (← pathText)
  record (.place reference s.path s.scope found)
  modify fun s => { s with scope }
  match found.filter (·.name = reference.name) with
  | some component => return component
  | none =>
    let component ← instantiate task reference.name (task.engine.classOf reference.name)
    return { component with bindings := reference.bindings, content := reference.content }

/-- Visit the template of the entered component between reading its bindings and writing
them back. -/
def visitEntered (visit : Element → Walk α) (template : Template) : Walk α := do
  record (.pull (← get).scope)
  liftScope Scope.pull
  let result ← visit template.root
  if (← get).scope.current.kind.synchronizes then
    record (.push (← get).scope)
    liftScope Scope.push
  return result

/-- Visit the component placed at the current path. -/
def inComponent (task : Task) (visit : Element → Walk α) (reference : Reference) : Walk α := do
  let key ← pathText
  let component ← placed task reference
  modify fun s => { s with scope := s.scope.enter key component }
  let result ← settle (visitEntered visit component.template) (popScope Scope.leave?)
  record .leave
  return result

/-- Visit what the caller put between the tags of the current component. -/
def inCaller (visit : Element → Walk (Option α)) : Walk (Option α) := do
  let scope := (← get).scope
  if scope.depth = 0 then return none
  match scope.current.content with
  | none => return none
  | some content =>
    popScope Scope.suspend?
    settle (visit content) (popScope Scope.resume?)

/-- The index of a component name at a switch: its number, as long as the numbers fit. Counting on
from zero would give two names one index. -/
def switchIndex (site : Site) (name : String) : Walk UInt32 := do
  let s ← get
  let (number, switches) := s.memory.switches.number site name
  if number ≤ ElementPath.maxIndex.toNat then
    modify fun s => { s with memory := { s.memory with switches } }
    return .ofNat number
  else throw .indexOverflow

/-- Visit the component that a switch chooses, on a branch of its own for every name. -/
def inSwitch (task : Task) (visit : Element → Walk (Option α)) (site : Site)
    (componentName : Association) (bindings : Associations) (content : Option Element) :
    Walk (Option α) := do
  match (← read componentName).display? with
  | none => return none
  | some name =>
    enterBranch (← switchIndex site name)
    settle (inComponent task visit ⟨name, bindings, content⟩) leaveBranch

end PageEngine.Walk
