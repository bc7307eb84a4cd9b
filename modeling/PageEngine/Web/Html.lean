import PageEngine.Value.Text

/-! Texts and start tags in HTML. In texts and attribute values the five characters that
could end them are written as entities. An attribute that is null or false is left out, and
a true one is its name alone. -/

namespace PageEngine.Html

/-- A character of a text or an attribute value. -/
def escapeChar (c : Char) : List Char :=
  if c = '&' then ['&', 'a', 'm', 'p', ';']
  else if c = '<' then ['&', 'l', 't', ';']
  else if c = '>' then ['&', 'g', 't', ';']
  else if c = '"' then ['&', 'q', 'u', 'o', 't', ';']
  else if c = '\'' then ['&', '#', '3', '9', ';']
  else [c]

def escape (text : String) : String :=
  String.ofList (text.toList.flatMap escapeChar)

/-- Names and values of attributes in the order of writing. -/
abbrev Attributes := List (String × Value)

/-- One attribute, after a space. -/
def attributeText (name : String) : Value → String
  | .null => ""
  | .bool false => ""
  | .bool true => " " ++ name
  | value => " " ++ name ++ "=\"" ++ escape value.display ++ "\""

/-- A start tag, closed with `/>` for an element without content. -/
def startTag (name : String) (attributes : Attributes) (isVoid : Bool) : String :=
  "<" ++ name ++ String.join (attributes.map fun (key, value) => attributeText key value) ++
    if isVoid then "/>" else ">"

def endTag (name : String) : String :=
  "</" ++ name ++ ">"

end PageEngine.Html
