import PageEngine.Error
import PageEngine.Resource.FileTree

/-! Where templates and declarations are loaded from: texts held in memory, or directories
that are searched in order. A file that is there but cannot be read stops the search. -/

namespace PageEngine

inductive Loader where
  | memory (texts : Dictionary String)
  | directories (tree : FileTree) (roots : List String)
  deriving Inhabited

namespace Loader

/-- Search directories in order. -/
def search (tree : FileTree) (path : String) : List String → Except EngineError (Option String)
  | [] => .ok none
  | root :: rest =>
    match tree.readText (joinPath root path) with
    | .ok text => .ok (some text)
    | .error .notFound => search tree path rest
    | .error failure => .error (.unreadable (joinPath root path) failure.reason)

/-- The text of a resource, if there is one. -/
def load : Loader → String → Except EngineError (Option String)
  | .memory texts, path => .ok (Dictionary.get? path texts)
  | .directories tree roots, path => search tree path roots

/-- Whether a resource can be loaded. -/
def contains (l : Loader) (path : String) : Bool :=
  match l.load path with
  | .ok (some _) => true
  | _ => false

/-- Add or replace a text held in memory. -/
def insert (path text : String) : Loader → Loader
  | .memory texts => .memory (Dictionary.insert path text texts)
  | l => l

end Loader

end PageEngine
