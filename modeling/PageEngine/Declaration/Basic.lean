import PageEngine.Declaration.Lexeme
import PageEngine.Markup.Node

/-! Declarations: `name : Type { key = value; … }`, one after another, with stray semicolons
between them. The structure is looked for among the plain lexemes only. Names and types are
read from the mask; keys and values have their literals put back, and a value that is one
literal is quoted. -/

namespace PageEngine

/-- A named element with its bindings. -/
structure Declaration where
  name : String
  typeName : String
  bindings : Bindings
  deriving DecidableEq, Repr

/-- Declarations by name. -/
abbrev Declarations := Dictionary Declaration

/-- The namespace of every declared element. -/
def declarationSpace : String := "wo"

/-- What a tag with a declared name says about its element. -/
def Declaration.head (d : Declaration) : ElementHead :=
  ⟨declarationSpace, d.typeName, d.bindings, false, d.name⟩

/-- Some lexemes and the offset where they begin. -/
structure Stretch where
  offset : Nat
  lexemes : List Lexeme
  deriving DecidableEq, Repr

namespace Stretch

def size : List Lexeme → Nat
  | [] => 0
  | l :: rest => l.size + size rest

/-- The masked text. -/
def masked (s : Stretch) : String :=
  String.ofList (s.lexemes.flatMap Lexeme.masked)

/-- The masked text with literals put back. -/
def restored (s : Stretch) : String :=
  String.ofList (s.lexemes.flatMap Lexeme.restored)

/-- The lexemes before and after the first plain `c`. -/
def cut (c : Char) : List Lexeme → Option (List Lexeme × List Lexeme)
  | [] => none
  | l :: rest =>
    if l = .plain c then some ([], rest)
    else (cut c rest).map fun (before, after) => (l :: before, after)

/-- Cut a stretch at its first plain `c`, an ASCII character. -/
def cutAt (c : Char) (s : Stretch) : Option (Stretch × Stretch) :=
  (cut c s.lexemes).map fun (before, after) =>
    (⟨s.offset, before⟩, ⟨s.offset + size before + 1, after⟩)

theorem eq_of_cut {c : Char} {ls before after : List Lexeme} (h : cut c ls = some (before, after)) :
    ls = before ++ .plain c :: after := by
  induction ls generalizing before with
  | nil => simp [cut] at h
  | cons l ls ih =>
    rw [cut] at h
    split at h
    · simp_all
    · obtain ⟨⟨b, a⟩, hb, he⟩ := Option.map_eq_some_iff.1 h
      obtain ⟨rfl, rfl⟩ := Prod.mk.injEq .. ▸ he
      rw [ih hb]
      rfl

theorem length_lt_of_cutAt {c : Char} {s before after : Stretch}
    (h : s.cutAt c = some (before, after)) : after.lexemes.length < s.lexemes.length := by
  obtain ⟨⟨b, a⟩, hb, he⟩ := Option.map_eq_some_iff.1 h
  obtain ⟨rfl, rfl⟩ := Prod.mk.injEq .. ▸ he
  rw [eq_of_cut hb, List.length_append]
  simp only [List.length_cons]
  omega

/-- Skip blanks, and separators if there is one. The stretch left begins at its first other
lexeme; when there is none, it begins after the last separator. -/
def skipFrom (separator : Option Char) (offset mark : Nat) : List Lexeme → Stretch
  | [] => ⟨mark, []⟩
  | l :: rest =>
    if separator.map Lexeme.plain = some l then
      skipFrom separator (offset + l.size) (offset + l.size) rest
    else if l.isBlank then skipFrom separator (offset + l.size) mark rest
    else ⟨offset, l :: rest⟩

def trimEnd (s : Stretch) : Stretch :=
  ⟨s.offset, (s.lexemes.reverse.dropWhile Lexeme.isBlank).reverse⟩

/-- The stretch without blanks at its ends. -/
def trim (s : Stretch) : Stretch :=
  (skipFrom none s.offset s.offset s.lexemes).trimEnd

/-- The head of a declaration without blanks at its ends and semicolons in front. -/
def trimHeader (s : Stretch) : Stretch :=
  (skipFrom (some ';') s.offset s.offset s.lexemes).trimEnd

/-- The pieces of a stretch between its plain occurrences of `c`. -/
def pieces (c : Char) (s : Stretch) : List Stretch :=
  match _h : s.cutAt c with
  | none => [s]
  | some (before, after) => before :: pieces c after
termination_by s.lexemes.length
decreasing_by exact length_lt_of_cutAt _h

/-- The key and the value of one line of a block; a blank line has none. -/
def binding? (line : Stretch) : Except Fault (Option (String × BindingValue)) :=
  let line := line.trim
  if line.lexemes.isEmpty then .ok none
  else
    match line.cutAt '=' with
    | none => .error ⟨.missingEquals, line.offset⟩
    | some (left, right) =>
      let key := left.trim
      let value := right.trim
      if key.lexemes.isEmpty then .error ⟨.missingBindingKey, line.offset⟩
      else
        match value.lexemes with
        | [] => .error ⟨.missingBindingValue, right.offset - 1⟩
        | [.literal _] => .ok (some (key.restored, .quoted value.restored))
        | _ => .ok (some (key.restored, .bare value.restored))

/-- The bindings of the lines of a block; of two with one key the later counts. -/
def bindingsOf (found : Bindings) : List Stretch → Except Fault Bindings
  | [] => .ok found
  | line :: rest =>
    match line.binding? with
    | .error fault => .error fault
    | .ok none => bindingsOf found rest
    | .ok (some (key, value)) => bindingsOf (Dictionary.insert key value found) rest

/-- One declaration from its head, already trimmed, and its block. -/
def declaration (header body : Stretch) : Except Fault Declaration :=
  match header.cutAt ':' with
  | none => .error ⟨.missingColon, header.offset⟩
  | some (left, right) =>
    let name := left.trim
    let typeName := right.trim
    if name.lexemes.isEmpty then .error ⟨.missingTagName, header.offset⟩
    else if typeName.lexemes.isEmpty then .error ⟨.missingTypeName, right.offset - 1⟩
    else (bindingsOf [] (body.pieces ';')).map fun bindings =>
      ⟨name.masked, typeName.masked, bindings⟩

/-- The declarations of a stretch, added to those already found. -/
def declarations (found : Declarations) (s : Stretch) : Except Fault Declarations :=
  match _h : s.cutAt '\x7b' with
  | none =>
    let header := s.trimHeader
    if header.lexemes.isEmpty then .ok found else .error ⟨.missingBlock, header.offset⟩
  | some (header, inside) =>
    match _h' : inside.cutAt '\x7d' with
    | none => .error ⟨.unclosedBlock, inside.offset - 1⟩
    | some (body, rest) =>
      let header := header.trimHeader
      match declaration header body with
      | .error fault => .error fault
      | .ok d =>
        if Dictionary.contains d.name found then
          .error ⟨.duplicateTagName d.name, header.offset⟩
        else declarations (Dictionary.insert d.name d found) rest
termination_by s.lexemes.length
decreasing_by
  exact Nat.lt_trans (length_lt_of_cutAt _h') (length_lt_of_cutAt _h)

end Stretch

/-- Read declarations; the fault is placed in `source`. -/
def Declarations.read (source : List Char) : Except Fault Declarations :=
  match Lexeme.lex source with
  | .error fault => .error fault
  | .ok lexemes => Stretch.declarations [] ⟨0, lexemes⟩

/-- Read the declarations of a source text. -/
def Declarations.parse (source : String) : Except FormatError Declarations :=
  (Declarations.read source.toList).mapError (FormatError.ofFault .declarations source)

end PageEngine
