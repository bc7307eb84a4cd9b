import PageEngine.ElementPath

/-! The address of an element on a page that was sent out before: `/wo/`, the context id
under which the page is kept, a dot, and the path of the element. -/

namespace PageEngine

/-- The page and the element that a request is for. -/
structure ActionUrl where
  context : String
  sender : ElementPath
  deriving DecidableEq, Repr

namespace ActionUrl

/-- How every address begins. -/
def start : List Char := ['/', 'w', 'o', '/']

/-- The written address. -/
def text (url : ActionUrl) : String :=
  String.ofList start ++ url.context ++ "." ++ url.sender.text

/-- Cut a text at its first dot, if it has one. -/
def cutAtDot (cs : List Char) : Option (List Char × List Char) :=
  match cs.dropWhile (· != '.') with
  | [] => none
  | _ :: rest => some (cs.takeWhile (· != '.'), rest)

/-- Read a written address; the context id may not be empty. -/
def read (text : String) : Option ActionUrl :=
  if start.isPrefixOf text.toList then
    match cutAtDot (text.toList.drop start.length) with
    | none => none
    | some (context, sender) =>
      if context.isEmpty then none
      else (ElementPath.read (String.ofList sender)).map fun path =>
        ⟨String.ofList context, path⟩
  else none

end ActionUrl

end PageEngine
