import PageEngine.Decimal.Reading
import PageEngine.Markup.Binding
import PageEngine.Text.Blank
import PageEngine.Text.Segments
import PageEngine.Value.Basic

/-! What a written binding means. A quoted value is a constant, except that on a tag a
leading dollar sign makes it dynamic; a bare value is dynamic. A dynamic value is a number,
a truth word, a reference to a binding of the caller when a caret leads, and a key path
otherwise. The truth words on a tag are exactly `true` and `false`; in declarations there
are more of them, in any case. -/

namespace PageEngine

/-- Where the value of a binding comes from. -/
inductive Association where
  | constant (value : Value)
  | keyPath (path : String)
  /-- The binding of that name which the caller gave to the current component. -/
  | reference (name : String)
  deriving Repr, Inhabited

/-- Associations by the name of their binding. -/
abbrev Associations := Dictionary Association

/-- What is wrong with the text of a key path. -/
inductive KeyPathFlaw where
  | outerDot
  | outerSpace
  | emptySegment
  | spaceAtDot
  | operator
  deriving DecidableEq, Repr

def KeyPathFlaw.reason : KeyPathFlaw → String
  | .outerDot => "starts or ends with '.'"
  | .outerSpace => "starts or ends with a space"
  | .emptySegment => "contains an empty segment"
  | .spaceAtDot => "contains a space next to '.'"
  | .operator => "key path operators are not supported"

/-- A binding that cannot become an association. -/
inductive AssociationError where
  | emptyKeyPath
  | invalidKeyPath (path : String) (flaw : KeyPathFlaw)
  | unterminatedQuote (text : String)
  | invalidEscape (text : String) (escape : Char)
  | danglingEscape (text : String)
  deriving DecidableEq, Repr

def AssociationError.message : AssociationError → String
  | .emptyKeyPath => "Empty key path"
  | .invalidKeyPath path flaw => "Invalid key path '" ++ path ++ "': " ++ flaw.reason
  | .unterminatedQuote text => "Quoted value " ++ text ++ " is missing its closing quote"
  | .invalidEscape text escape =>
    "Invalid escape sequence '\\" ++ escape.toString ++ "' in " ++ text
  | .danglingEscape text => "Dangling '\\' at the end of " ++ text

namespace Association

/-- Whether writing through the association can have an effect. -/
def isSettable : Association → Bool
  | .constant _ => false
  | .keyPath _ => true
  | .reference _ => true

/-! ### Quoted constants -/

/-- The character that a backslash and this one stand for. -/
def escaped? : Char → Option Char
  | 'n' => some '\n'
  | 'r' => some '\r'
  | 't' => some '\t'
  | '\\' => some '\\'
  | '"' => some '"'
  | '\'' => some '\''
  | '$' => some '$'
  | _ => none

/-- Replace escapes from left to right; errors name the whole text. -/
def unescape (whole : String) : List Char → Except AssociationError (List Char)
  | [] => .ok []
  | ['\\'] => .error (.danglingEscape whole)
  | '\\' :: c :: rest =>
    match escaped? c with
    | some d => (unescape whole rest).map (d :: ·)
    | none => .error (.invalidEscape whole c)
  | c :: rest => (unescape whole rest).map (c :: ·)

/-- Take the quotes off; without an opening quote there are none. -/
def stripQuotes (text : String) : Except AssociationError (List Char) :=
  match betweenQuotes? text.toList, text.toList with
  | some inner, _ => .ok inner
  | none, c :: rest => if isQuote c then .error (.unterminatedQuote text) else .ok (c :: rest)
  | none, [] => .ok []

/-! ### Key paths -/

/-- Whether `b` directly follows `a` somewhere. -/
def adjacent (a b : Char) : List Char → Bool
  | x :: y :: rest => (x == a && y == b) || adjacent a b (y :: rest)
  | _ => false

/-- Whether a text begins or ends with `c`. -/
def bordered (c : Char) (cs : List Char) : Bool :=
  cs.head? == some c || cs.getLast? == some c

def flaw? (cs : List Char) : Option KeyPathFlaw :=
  if bordered '.' cs then some .outerDot
  else if bordered ' ' cs then some .outerSpace
  else if adjacent '.' '.' cs then some .emptySegment
  else if adjacent '.' ' ' cs || adjacent ' ' '.' cs then some .spaceAtDot
  else if cs.head? == some '@' || adjacent '.' '@' cs then some .operator
  else none

/-- The text of a sound key path. -/
def soundPath (cs : List Char) : Except AssociationError String :=
  if cs.isEmpty then .error .emptyKeyPath
  else match flaw? cs with
    | some flaw => .error (.invalidKeyPath (String.ofList cs) flaw)
    | none => .ok (String.ofList cs)

/-! ### Dynamic values -/

/-- The number that a text writes. Without a point it is whole if it fits sixty-four bits;
otherwise it is a double, and null beyond the largest. -/
def numeral? (cs : List Char) : Option Value :=
  (Decimal.readPlain cs).map fun decimal =>
    let whole := if cs.contains '.' then none else (Text.readSigned cs).filter Text.isWord
    match whole, decimal.toDouble? with
    | some i, _ => .number (.whole i)
    | none, some d => .number (.double d)
    | none, none => .null

/-- The truth value that a word stands for. -/
def truthWord? (isInline : Bool) (cs : List Char) : Option Bool :=
  let word := String.ofList (if isInline then cs else cs.map Char.toLower)
  let words := if isInline then (["true"], ["false"])
    else (["true", "yes"], ["false", "no", "nil", "null"])
  if words.1.contains word then some true
  else if words.2.contains word then some false
  else none

/-- Read a dynamic value. -/
def ofDynamic (isInline : Bool) (cs : List Char) : Except AssociationError Association :=
  match numeral? cs, truthWord? isInline cs, cs with
  | some number, _, _ => .ok (.constant number)
  | none, some b, _ => .ok (.constant (.bool b))
  | none, none, '^' :: name => (soundPath name).map .reference
  | none, none, path => (soundPath path).map .keyPath

/-- The text before an ending, if it has that ending. -/
def beforeEnding? (ending cs : List Char) : Option (List Char) :=
  if ending.isSuffixOf cs then some (cs.take (cs.length - ending.length)) else none

/-- Drop the mark `// VALID` from the end, with the blanks before it and inside it. -/
def dropMark (cs : List Char) : List Char :=
  let marked := (beforeEnding? ['V', 'A', 'L', 'I', 'D'] cs).bind fun before =>
    beforeEnding? ['/', '/'] (Text.trimEnd before)
  (marked.map Text.trimEnd).getD cs

/-- The association of a written binding. -/
def ofBinding (isInline : Bool) : BindingValue → Except AssociationError Association
  | .present => .ok (.constant (.bool true))
  | .bare text => ofDynamic isInline text.toList
  | .quoted text =>
    match stripQuotes text with
    | .error e => .error e
    | .ok inner =>
      match isInline, inner with
      | true, '$' :: dynamic => ofDynamic true (dropMark dynamic)
      | _, _ =>
        (unescape (String.ofList inner) inner).map fun cs =>
          .constant (.text (String.ofList cs))

@[simp] theorem ofBinding_present (isInline : Bool) :
    ofBinding isInline .present = .ok (.constant (.bool true)) := rfl

@[simp] theorem ofBinding_bare (isInline : Bool) (text : String) :
    ofBinding isInline (.bare text) = ofDynamic isInline text.toList := rfl

/-- In a declaration a quoted text is never dynamic. -/
theorem ofBinding_declared {text : String} {inner : List Char}
    (h : stripQuotes text = .ok inner) :
    ofBinding false (.quoted text) =
      (unescape (String.ofList inner) inner).map fun cs =>
        .constant (.text (String.ofList cs)) := by
  simp [ofBinding, h]

end Association

end PageEngine
