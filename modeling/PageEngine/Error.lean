import PageEngine.Association
import PageEngine.Markup.FormatError

/-! What can go wrong when templates are built and pages are walked. Errors are told apart
by their cause; the printed message and code are functions of it. -/

namespace PageEngine

/-- An element with bindings missing, too many, or unreadable. -/
inductive BindingError where
  | missing (element binding : String)
  | missingOneOf (element bindings : String)
  | conflicting (element bindings : String)
  | association (element binding : String) (cause : AssociationError)
  deriving DecidableEq, Repr

def BindingError.message : BindingError → String
  | .missing element binding => "<" ++ element ++ "> requires the '" ++ binding ++ "' binding"
  | .missingOneOf element bindings => "<" ++ element ++ "> requires one of [" ++ bindings ++ "]"
  | .conflicting element bindings =>
    "<" ++ element ++ "> accepts only one of [" ++ bindings ++ "]"
  | .association element binding cause =>
    "Binding '" ++ binding ++ "' on <" ++ element ++ ">: " ++ cause.message

/-- A name that leads to nothing. -/
inductive LookupError where
  | element (space name : String)
  | template (name : String)
  | action (component name : String)
  deriving DecidableEq, Repr

namespace LookupError

def message : LookupError → String
  | .element space name =>
    "No dynamic element or component named '" ++ space ++ ":" ++ name ++ "'"
  | .template name => "No template found for component '" ++ name ++ "'"
  | .action component name =>
    "Component '" ++ component ++ "' has no action named '" ++ name ++ "'"

def code : LookupError → String
  | .element _ _ => "L100"
  | .template _ => "L101"
  | .action _ _ => "L102"

end LookupError

/-- A request or a walk that does not fit the state of the page or the session. -/
inductive StateError where
  | duplicateKey (key : String)
  | missingKey (key : String)
  | pageNotFound (context : String)
  | pathUnderflow
  | scopeUnderflow
  | multipleFormValues (name : String) (count : Nat)
  | invalidSelection (name value : String)
  | invalidActionUrl (url : String)
  | unknownSession (id : String)
  deriving DecidableEq, Repr

def StateError.message : StateError → String
  | .duplicateKey key => "Page cache already contains an entry for context '" ++ key ++ "'"
  | .missingKey key => "Page cache has no entry for context '" ++ key ++ "'"
  | .pageNotFound context => "No page stored for context '" ++ context ++ "'"
  | .pathUnderflow => "Element path popped past its root"
  | .scopeUnderflow => "Component scope popped past the page"
  | .multipleFormValues name count =>
    "The request contains " ++ toString count ++ " form values named '" ++ name ++
      "', expected at most one"
  | .invalidSelection name value =>
    "Form value '" ++ value ++ "' for '" ++ name ++ "' does not select an item of the list"
  | .invalidActionUrl url => "Invalid component action URL '" ++ url ++ "'"
  | .unknownSession id => "No session with id '" ++ id ++ "'"

/-- Everything that can stop the engine. -/
inductive EngineError where
  | format (cause : FormatError)
  | binding (cause : BindingError)
  | lookup (cause : LookupError)
  | state (cause : StateError)
  /-- A resource that is there but cannot be read. -/
  | unreadable (path reason : String)
  /-- Components and their contents are nested beyond the limit of a walk. -/
  | tooDeep
  /-- Elements on one branch, or names at one switch, are more than there are indices. -/
  | indexOverflow
  deriving DecidableEq, Repr

namespace EngineError

def message : EngineError → String
  | .format cause => cause.message
  | .binding cause => cause.message
  | .lookup cause => cause.message
  | .state cause => cause.message
  | .unreadable path reason =>
    "Failed to read template resource '" ++ path ++ "': " ++ reason
  | .tooDeep => "Components are nested too deeply"
  | .indexOverflow => "Element index does not fit 32 bits"

/-- The code printed with an error. -/
def code : EngineError → String
  | .format cause => cause.code
  | .binding _ => "B100"
  | .lookup cause => cause.code
  | .state _ => "S100"
  | .unreadable _ _ => "E900"
  | .tooDeep => "S101"
  | .indexOverflow => "S102"

end EngineError

instance : Coe FormatError EngineError := ⟨.format⟩
instance : Coe BindingError EngineError := ⟨.binding⟩
instance : Coe LookupError EngineError := ⟨.lookup⟩
instance : Coe StateError EngineError := ⟨.state⟩

end PageEngine
