import PageEngine.Bytes.Reader
import PageEngine.Markup.Attributes
import PageEngine.Markup.Directive

/-! Bindings and directives read by bytes. After a backslash in a quoted value two bytes are
passed, which may lead into a character. The content of a directive is passed byte by byte. -/

namespace PageEngine.ByteReader

variable (source : ByteReader)

/-! ### Bindings -/

/-- The position after the closing quote of a value that began at `start`. -/
def quoteEnd (source : ByteReader) (quote : Char) (start pos : Nat) : Checked Nat :=
  match byteAt source pos with
  | none => throw ⟨.unclosedQuotedValue, start⟩
  | some b =>
    if Text.byteIs (· == '\\') b then source |>.quoteEnd quote start (advance source 2 pos)
    else if Text.byteIs (· == quote) b then pure (advance source 1 pos)
    else source |>.quoteEnd quote start (advance source 1 pos)
partial_fixpoint

/-- The end of the key of a binding. -/
def endsKey (c : Char) : Bool := Text.isMarkupSpace c || c == '=' || c == '>' || c == '/'

/-- The end of a value without quotes. -/
def endsBare (c : Char) : Bool := Text.isMarkupSpace c || c == '>' || c == '/'

def bareValue (pos : Nat) : Checked (BindingValue × Nat) := do
  let (text, stop) ← takeRun source (fun b => !Text.byteIs endsBare b) pos
  if text.isEmpty then throw ⟨.expectedBindingValue, pos⟩
  else return (.bare (String.ofList text), stop)

def bindingValue (pos : Nat) : Checked (BindingValue × Nat) :=
  match byteAt source pos with
  | none => bareValue source pos
  | some b =>
    if Text.byteIs isQuote b then do
      let stop ← quoteEnd source (Char.ofNat b.toNat) pos (advance source 1 pos)
      return (.quoted (String.ofList (← cutOut source pos stop)), stop)
    else bareValue source pos

def binding (pos : Nat) : Checked ((String × BindingValue) × Nat) := do
  let (key, stop) ← takeRun source (fun b => !Text.byteIs endsKey b) pos
  if key.isEmpty then throw ⟨.expectedBindingKey, pos⟩
  else
    let next := skipSpace source stop
    if isAt source (· == '=') next then do
      let (value, after) ← bindingValue source (skipSpace source (advance source 1 next))
      return ((String.ofList key, value), after)
    else return ((String.ofList key, .present), next)

def bindings (source : ByteReader) (found : Bindings) (pos : Nat) : Checked (Bindings × Nat) :=
  let pos := skipSpace source pos
  match byteAt source pos with
  | none => throw ⟨.unexpectedEnd '>', pos⟩
  | some b =>
    if Text.byteIs (fun c => c == '>' || c == '/') b then pure (found, pos)
    else do
      let ((key, value), after) ← binding source pos
      source |>.bindings (Dictionary.insert key value found) after
partial_fixpoint

/-! ### Directives -/

/-- How an opening tag may go on after the name. -/
def endsOpener (c : Char) : Bool :=
  c == '>' || c == '/' || c == ' ' || c == '\t' || c == '\n' || c == '\r'

/-- How a closing tag may go on after the name. -/
def endsCloser (c : Char) : Bool := c == '>' || Text.isMarkupSpace c

def opensAt (d : Directive) (pos : Nat) : Checked Bool := wordAt source true d.opener endsOpener pos

def closesAt (d : Directive) (pos : Nat) : Checked Bool := wordAt source true d.closer endsCloser pos

def directiveAt? (pos : Nat) : Checked (Option Directive) := do
  if ← opensAt source .raw pos then return some .raw
  else if ← opensAt source .comment pos then return some .comment
  else return none

/-- Pass a tag up to its `>`; whether it ends in `/>`. -/
def passTag (pos : Nat) : Checked (Bool × Nat) := do
  let rest ← cutOut source pos (Text.byteLength source)
  let inside := rest.takeWhile (· != '>')
  if inside.length = rest.length then throw ⟨.unexpectedEnd '>', pos⟩
  else
    let stop := advance source (Text.byteLength inside + 1) pos
    if inside.isEmpty then return (false, stop)
    else
      match byteAt source (stop - 2) with
      | none => .stuck
      | some b => return (Text.byteIs (· == '/') b, stop)

/-- The content of a directive that began at `start`, from `inside` up to the closing tag, with
`depth` further blocks open. -/
def content (source : ByteReader) (d : Directive) (start inside depth pos : Nat) :
    Checked (List Char × Nat) :=
  if Text.byteLength source ≤ pos then throw ⟨.unclosedDirective d.name, start⟩
  else do
    if ← closesAt source d pos then
      let past := advance source (Text.byteLength d.closer) pos
      match depth with
      | 0 =>
        let stop := skipSpace source past
        if isAt source (· == '>') stop then
          return (← cutOut source inside pos, advance source 1 stop)
        else throw ⟨.unclosedDirective d.name, start⟩
      | depth + 1 => source |>.content d start inside depth past
    else if ← opensAt source d pos then
      let (isEmpty, after) ← passTag source pos
      source |>.content d start inside (if isEmpty then depth else depth + 1) after
    else source |>.content d start inside depth (advance source 1 pos)
partial_fixpoint

def directive (d : Directive) (pos : Nat) : Checked (Node × Nat) := do
  let (isEmpty, inside) ← passTag source pos
  if isEmpty then return (d.node [] (Span.ofBounds pos inside), inside)
  else
    let (text, stop) ← content source d pos inside 0 inside
    return (d.node text (Span.ofBounds pos stop), stop)

end PageEngine.ByteReader
