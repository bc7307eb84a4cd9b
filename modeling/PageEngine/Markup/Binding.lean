import PageEngine.Dictionary

/-! The right-hand sides of bindings as they are written. A quoted value keeps its quotes;
what it means is decided where it becomes an association. -/

namespace PageEngine

/-- A written binding value: with quotes, without, or a key standing alone. -/
inductive BindingValue where
  | quoted (text : String)
  | bare (text : String)
  | present
  deriving DecidableEq, Repr

/-- Bindings by key. -/
abbrev Bindings := Dictionary BindingValue

def isQuote (c : Char) : Bool :=
  c == '"' || c == '\''

/-- What stands between two equal quotes, if the whole text is that. -/
def betweenQuotes? : List Char → Option (List Char)
  | [] => none
  | q :: rest =>
    if isQuote q && rest.getLast? == some q then some rest.dropLast else none

/-- The written text without surrounding quotes; a key standing alone has none. -/
def BindingValue.unquoted : BindingValue → Option String
  | .quoted text => some (((betweenQuotes? text.toList).map String.ofList).getD text)
  | .bare text => some text
  | .present => none

theorem betweenQuotes?_of_quoted {q : Char} (hq : isQuote q = true) (body : List Char) :
    betweenQuotes? (q :: (body ++ [q])) = some body := by
  simp [betweenQuotes?, hq]

end PageEngine
