/-! What stands between the parts of a TOML document: space within a line, line ends, and
comments, which run to the end of their line. -/

namespace PageEngine.Document

def isSpace (c : Char) : Bool :=
  c == ' ' || c == '\t'

/-- Characters of comments and of quoted texts: all but the control characters, of which
only the tab is allowed. -/
def isPlain (c : Char) : Bool :=
  c == '\t' || (' ' ≤ c && c != '\x7f')

def skipSpace (cs : List Char) : List Char :=
  cs.dropWhile isSpace

/-- What follows a line end: a line feed, which may have a carriage return before it. -/
def afterLineEnd? : List Char → Option (List Char)
  | '\n' :: cs => some cs
  | '\r' :: '\n' :: cs => some cs
  | _ => none

/-- Skip space, line ends and comments, starting inside a comment or not. -/
def skipBlank (comment : Bool) : List Char → List Char
  | [] => []
  | '\n' :: cs => skipBlank false cs
  | '\r' :: '\n' :: cs => skipBlank false cs
  | c :: cs =>
    if comment then if isPlain c then skipBlank true cs else c :: cs
    else if isSpace c then skipBlank false cs
    else if c = '#' then skipBlank true cs
    else c :: cs

/-- What follows a line that holds nothing but space and a comment any more. -/
def afterLine? (cs : List Char) : Option (List Char) :=
  let rest :=
    match skipSpace cs with
    | '#' :: comment => comment.dropWhile isPlain
    | rest => rest
  if rest.isEmpty then some [] else afterLineEnd? rest

theorem length_skipBlank_le (comment : Bool) (cs : List Char) :
    (skipBlank comment cs).length ≤ cs.length := by
  fun_induction skipBlank comment cs <;> simp_all <;> omega

end PageEngine.Document
