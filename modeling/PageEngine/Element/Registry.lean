import PageEngine.Element.Kind

/-! The names under which elements can be written. A name stands in a namespace; several
names may stand for one kind. -/

namespace PageEngine

/-- Kinds by namespace and name, later entries first. -/
structure ElementRegistry where
  entries : List ((String × String) × Kind)

namespace ElementRegistry

def empty : ElementRegistry := ⟨[]⟩

/-- Give a name a kind, in place of any kind it had. -/
def register (r : ElementRegistry) (space name : String) (kind : Kind) : ElementRegistry :=
  ⟨((space, name), kind) :: r.entries⟩

def kind? (r : ElementRegistry) (space name : String) : Option Kind :=
  r.entries.lookup (space, name)

/-- The names of the built-in kinds. -/
def builtIns : List (String × Kind) :=
  [("String", .string), ("str", .string),
    ("Conditional", .conditional), ("if", .conditional),
    ("Repetition", .repetition), ("repetition", .repetition),
    ("SwitchComponent", .switch), ("switch", .switch),
    ("ComponentContent", .slot), ("content", .slot),
    ("GenericContainer", .container), ("container", .container),
    ("Hyperlink", .hyperlink), ("link", .hyperlink),
    ("Form", .form), ("form", .form),
    ("SubmitButton", .submitButton), ("submit", .submitButton),
    ("TextField", .textField), ("textfield", .textField),
    ("Text", .textArea), ("text", .textArea),
    ("PopUpButton", .popUp), ("popUpButton", .popUp), ("popup", .popUp),
    ("GenericElement", .void), ("element", .void),
    ("ActionURL", .actionUrl), ("actionURL", .actionUrl)]

/-- The namespace of the built-in elements. -/
def builtInSpace : String := "wo"

/-- A registry of the built-in elements. -/
def standard : ElementRegistry :=
  ⟨builtIns.map fun (name, kind) => ((builtInSpace, name), kind)⟩

@[simp] theorem kind?_register_self (r : ElementRegistry) (space name : String) (kind : Kind) :
    (r.register space name kind).kind? space name = some kind := by
  simp [register, kind?]

theorem kind?_register_of_ne (r : ElementRegistry) {space name space' name' : String}
    (h : (space', name') ≠ (space, name)) (kind : Kind) :
    (r.register space name kind).kind? space' name' = r.kind? space' name' := by
  simp only [register, kind?, List.lookup_cons]
  split
  · rename_i heq
    exact absurd (beq_iff_eq.1 heq) h
  · rfl

end ElementRegistry

end PageEngine
