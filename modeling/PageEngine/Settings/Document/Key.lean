import PageEngine.Settings.Document.Quoted

/-! Keys of a TOML document. A key is a sequence of names with dots between them; a name is
a run of letters, digits, underscores and hyphens, or a quoted text within a line. -/

namespace PageEngine.Document

/-- A name under which something stands, and the names of the tables around it. -/
structure Key where
  tables : List String
  name : String
  deriving DecidableEq, Repr

/-- All names of a key, outermost first. -/
def Key.names (key : Key) : List String :=
  key.tables ++ [key.name]

def isNameChar (c : Char) : Bool :=
  c.isAlphanum || c == '_' || c == '-'

/-- Read one name. -/
def readName (cs : List Char) : Option (String × List Char) :=
  match cs with
  | '"' :: rest => (readShort '"' rest).map fun (body, rest) => (String.ofList body, rest)
  | '\'' :: rest => (readShort '\'' rest).map fun (body, rest) => (String.ofList body, rest)
  | _ =>
    let name := cs.takeWhile isNameChar
    if name.isEmpty then none else some (String.ofList name, cs.dropWhile isNameChar)

/-- How many names a key may have. -/
def greatestKeyLength : Nat := 80

/-- Read names up to the last, given those before; `fuel` bounds how many. -/
def readNames (tables : List String) : Nat → List Char → Option (Key × List Char)
  | 0, _ => none
  | fuel + 1, cs => do
    let (name, rest) ← readName cs
    match skipSpace rest with
    | '.' :: rest => readNames (tables ++ [name]) fuel (skipSpace rest)
    | rest => return (⟨tables, name⟩, rest)

/-- Read a key and the space after it. -/
def readKey (cs : List Char) : Option (Key × List Char) :=
  readNames [] greatestKeyLength cs

/-- What is read as a key has no more names than a key may have. -/
theorem length_names_le_of_readNames {fuel : Nat} {tables : List String} {cs rest : List Char}
    {key : Key} (h : readNames tables fuel cs = some (key, rest)) :
    key.names.length ≤ tables.length + fuel := by
  induction fuel generalizing tables cs with
  | zero => simp [readNames] at h
  | succ fuel ih =>
    simp only [readNames, Option.bind_eq_bind, Option.bind_eq_some_iff, Prod.exists] at h
    obtain ⟨name, after, _, h⟩ := h
    split at h
    · have := ih h
      simp only [List.length_append, List.length_singleton] at this
      omega
    · simp only [pure, Option.some.injEq, Prod.mk.injEq] at h
      obtain ⟨rfl, _⟩ := h
      simp [Key.names]

end PageEngine.Document
