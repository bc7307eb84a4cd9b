import PageEngine.Component.Scope

/-! Values between a component and its caller. On entry every binding is read as the caller
sees it and stored under its name. After the visit the values of those bindings that can be
written go back. -/

namespace PageEngine.Scope

/-- Store what the bindings read at the caller in the current component. -/
def pull (s : Scope) : Except StateError Scope :=
  match s.depth with
  | 0 => .error .scopeUnderflow
  | caller + 1 =>
    .ok (s.current.bindings.foldl
      (fun s (name, a) => s.modifyCurrent fun c => c.put name (s.read a caller)) s)

/-- Write the values of the current component back to its caller. -/
def push (s : Scope) : Except StateError Scope :=
  match s.depth with
  | 0 => .error .scopeUnderflow
  | caller + 1 =>
    (s.current.bindings.filter fun (_, a) => a.isSettable).foldlM
      (fun s (name, a) => s.write a caller (s.current.values.get name)) s

end PageEngine.Scope
