import PageEngine.Source.Diagnostic
import PageEngine.Source.LineIndex

/-! Errors in the form of a template or of its declarations. While reading only the kind
and the byte offset are kept; line, column and drawing come from the source. -/

namespace PageEngine

/-- The two texts that are read together. -/
inductive SourceKind where
  | template
  | declarations
  deriving DecidableEq, Repr

inductive FormatErrorKind where
  | unexpectedEnd (expected : Char)
  | expected (expected found : Char)
  | unclosedElement (name : String)
  | mismatchedClosingTag (name : String)
  | unopenedClosingTag (name : String)
  | spaceAfterClosingBracket
  | spaceAfterNamespace
  | unclosedDirective (name : String)
  | expectedBindingKey
  | expectedBindingValue
  | unclosedQuotedValue
  | missingLegacyName (keyword : String)
  | undeclaredElement (name : String)
  | missingColon
  | missingTagName
  | missingTypeName
  | duplicateTagName (name : String)
  | missingBlock
  | unclosedBlock
  | unclosedComment
  | unclosedString
  | missingEquals
  | missingBindingKey
  | missingBindingValue
  deriving DecidableEq, Repr

namespace FormatErrorKind

def message : FormatErrorKind → String
  | .unexpectedEnd c => "Unexpected end of template, expected '" ++ c.toString ++ "'"
  | .expected c found => "Expected '" ++ c.toString ++ "' but found '" ++ found.toString ++ "'"
  | .unclosedElement name => "Unexpected end of template. Expected closing tag </" ++ name ++ ">"
  | .mismatchedClosingTag name => "Unexpected closing tag. Expected </" ++ name ++ ">"
  | .unopenedClosingTag name => "Unexpected closing tag </" ++ name ++ ">"
  | .spaceAfterClosingBracket => "Unexpected space after '</' in closing tag"
  | .spaceAfterNamespace => "Unexpected space after ':' in namespaced tag"
  | .unclosedDirective name => "Unclosed parser directive <p:" ++ name ++ ">"
  | .expectedBindingKey => "Expected binding key"
  | .expectedBindingValue => "Expected binding value"
  | .unclosedQuotedValue => "Unclosed quoted binding value"
  | .missingLegacyName keyword => "Missing 'name' attribute on <" ++ keyword ++ "> tag"
  | .undeclaredElement name =>
    "No declaration for dynamic element (or component) named '" ++ name ++ "'"
  | .missingColon => "Missing ':' for declaration"
  | .missingTagName => "Missing tag name"
  | .missingTypeName => "Missing element name"
  | .duplicateTagName name => "Duplicate tag name '" ++ name ++ "'"
  | .missingBlock => "Missing '\x7b' for declaration"
  | .unclosedBlock => "Unclosed declaration block"
  | .unclosedComment => "Unclosed comment"
  | .unclosedString => "Unclosed quoted string"
  | .missingEquals => "Invalid line. No equal in line"
  | .missingBindingKey => "Missing binding in line"
  | .missingBindingValue => "Missing value in line"

/-- The code printed with an error; errors of one cause share it. -/
def code : FormatErrorKind → String
  | .unexpectedEnd _ => "F100"
  | .expected _ _ => "F100"
  | .unclosedElement _ => "F101"
  | .mismatchedClosingTag _ => "F102"
  | .unopenedClosingTag _ => "F102"
  | .spaceAfterClosingBracket => "F103"
  | .spaceAfterNamespace => "F103"
  | .unclosedDirective _ => "F104"
  | .expectedBindingKey => "F106"
  | .expectedBindingValue => "F106"
  | .unclosedQuotedValue => "F106"
  | .missingLegacyName _ => "F107"
  | .undeclaredElement _ => "F108"
  | .missingColon => "F200"
  | .missingTagName => "F200"
  | .missingTypeName => "F200"
  | .missingBlock => "F200"
  | .duplicateTagName _ => "F201"
  | .unclosedBlock => "F202"
  | .unclosedComment => "F202"
  | .unclosedString => "F202"
  | .missingEquals => "F203"
  | .missingBindingKey => "F203"
  | .missingBindingValue => "F203"

end FormatErrorKind

/-- What went wrong, and at which offset. -/
structure Fault where
  kind : FormatErrorKind
  offset : Nat
  deriving DecidableEq, Repr

theorem exists_of_map_ok {α β : Type} {result : Except Fault α} {f : α → β} {y : β}
    (h : result.map f = .ok y) : ∃ x, result = .ok x ∧ f x = y := by
  cases result with
  | error fault => cases h
  | ok x => exact ⟨x, rfl, Except.ok.inj h⟩

/-- A fault together with the text it was found in. -/
structure FormatError where
  kind : FormatErrorKind
  offset : Nat
  sourceKind : SourceKind
  source : String
  deriving DecidableEq, Repr

namespace FormatError

/-- Attach the source to a fault; the offset is held within it. -/
def ofFault (sourceKind : SourceKind) (source : String) (fault : Fault) : FormatError :=
  ⟨fault.kind, min fault.offset (Text.byteLength source.toList), sourceKind, source⟩

def code (e : FormatError) : String :=
  e.kind.code

/-- The character at the error, or nothing at the end of the source. -/
def span (e : FormatError) : Span :=
  match Text.splitBytes e.offset e.source.toList with
  | some (_, c :: _) => Span.ofBounds e.offset (e.offset + c.utf8Size)
  | _ => Span.ofBounds e.offset e.offset

def position (e : FormatError) : Position :=
  (LineIndex.ofText e.source).position (clampOffset e.offset)

def message (e : FormatError) : String :=
  let p := e.position
  e.kind.message ++ " (line " ++ toString p.line ++ ", column " ++ toString p.column ++ ")"

/-- Draw the error under its line. -/
def render (e : FormatError) (path : String) : String :=
  Diagnostic.render ⟨e.source, path, e.code, e.kind.message, .error, e.span, "", []⟩

end FormatError

end PageEngine
