import PageEngine.Markup.FormatError
import PageEngine.Text.Blank

/-! The lexemes of a declaration text: comments, quoted literals, and single characters of
everything else. Whichever begins first wins, so nothing inside a comment or a literal is
ever taken for structure. Each lexeme has its written form and a mask of the same length
in bytes, in which comments are blank and literals are filled. -/

namespace PageEngine

inductive Lexeme where
  | plain (c : Char)
  /-- From two slashes to the end of the line; the text after the slashes. -/
  | lineComment (text : List Char)
  /-- Between a slash with a star and a star with a slash. -/
  | blockComment (text : List Char)
  /-- Between two double quotes; a backslash takes the next character along. -/
  | literal (body : List Char)
  deriving DecidableEq, Repr

namespace Lexeme

/-- The lexeme as it stands in the source. -/
def written : Lexeme → List Char
  | .plain c => [c]
  | .lineComment text => '/' :: '/' :: text
  | .blockComment text => '/' :: '*' :: text ++ ['*', '/']
  | .literal body => '"' :: body ++ ['"']

/-- A character of a comment leaves blanks; lines still end where they did. -/
def blankOut (c : Char) : List Char :=
  if c = '\n' then ['\n'] else List.replicate c.utf8Size ' '

/-- A character of a literal leaves filling. -/
def fillIn (c : Char) : List Char :=
  List.replicate c.utf8Size '_'

/-- What is left of the lexeme when comments and literals are masked. -/
def masked : Lexeme → List Char
  | .plain c => [c]
  | .literal body => '"' :: body.flatMap fillIn ++ ['"']
  | comment => comment.written.flatMap blankOut

/-- The masked text with literals put back. -/
def restored : Lexeme → List Char
  | .literal body => '"' :: body ++ ['"']
  | lexeme => lexeme.masked

/-- Comments and blank characters. -/
def isBlank : Lexeme → Bool
  | .plain c => Text.isBlank c
  | .literal _ => false
  | _ => true

/-- The number of bytes of a lexeme. -/
def size (l : Lexeme) : Nat :=
  Text.byteLength l.written

/-- The text of a block comment and what follows it. -/
def takeBlock : List Char → Option (List Char × List Char)
  | [] => none
  | '*' :: '/' :: rest => some ([], rest)
  | c :: rest => (takeBlock rest).map fun (text, rest) => (c :: text, rest)

/-- The body of a literal and what follows it. -/
def takeLiteral : List Char → Option (List Char × List Char)
  | [] => none
  | '"' :: rest => some ([], rest)
  | '\\' :: c :: rest => (takeLiteral rest).map fun (body, rest) => ('\\' :: c :: body, rest)
  | c :: rest => (takeLiteral rest).map fun (body, rest) => (c :: body, rest)

theorem eq_of_takeBlock {cs text rest : List Char} (h : takeBlock cs = some (text, rest)) :
    cs = text ++ '*' :: '/' :: rest := by
  fun_induction takeBlock cs generalizing text with
  | case1 => simp at h
  | case2 => simp_all
  | case3 c cs _ ih =>
    obtain ⟨⟨t, r⟩, ht, he⟩ := Option.map_eq_some_iff.1 h
    obtain ⟨rfl, rfl⟩ := Prod.mk.injEq .. ▸ he
    rw [ih ht]
    rfl

theorem eq_of_takeLiteral {cs body rest : List Char} (h : takeLiteral cs = some (body, rest)) :
    cs = body ++ '"' :: rest := by
  fun_induction takeLiteral cs generalizing body with
  | case1 => simp at h
  | case2 => simp_all
  | case3 c cs ih =>
    obtain ⟨⟨t, r⟩, ht, he⟩ := Option.map_eq_some_iff.1 h
    obtain ⟨rfl, rfl⟩ := Prod.mk.injEq .. ▸ he
    rw [ih ht]
    rfl
  | case4 c cs _ _ ih =>
    obtain ⟨⟨t, r⟩, ht, he⟩ := Option.map_eq_some_iff.1 h
    obtain ⟨rfl, rfl⟩ := Prod.mk.injEq .. ▸ he
    rw [ih ht]
    rfl

/-- The lexemes of a text that begins at `offset`. -/
def lexFrom (offset : Nat) (cs : List Char) : Except Fault (List Lexeme) :=
  match cs with
  | [] => .ok []
  | '/' :: '*' :: rest =>
    match h : takeBlock rest with
    | none => .error ⟨.unclosedComment, offset⟩
    | some (text, rest') =>
      have : rest'.length < rest.length + 2 := by
        rw [eq_of_takeBlock h, List.length_append]
        simp only [List.length_cons]
        omega
      let lexeme := .blockComment text
      (lexFrom (offset + size lexeme) rest').map (lexeme :: ·)
  | '/' :: '/' :: rest =>
    have : (rest.dropWhile (· != '\n')).length < rest.length + 2 := by
      have := (List.dropWhile_sublist (l := rest) (· != '\n')).length_le
      omega
    let lexeme := .lineComment (rest.takeWhile (· != '\n'))
    (lexFrom (offset + size lexeme) (rest.dropWhile (· != '\n'))).map (lexeme :: ·)
  | '"' :: rest =>
    match h : takeLiteral rest with
    | none => .error ⟨.unclosedString, offset⟩
    | some (body, rest') =>
      have : rest'.length < rest.length + 1 := by
        rw [eq_of_takeLiteral h, List.length_append]
        simp only [List.length_cons]
        omega
      let lexeme := .literal body
      (lexFrom (offset + size lexeme) rest').map (lexeme :: ·)
  | c :: rest => (lexFrom (offset + c.utf8Size) rest).map (.plain c :: ·)
termination_by cs.length

/-- The lexemes of a declaration text. -/
def lex (source : List Char) : Except Fault (List Lexeme) :=
  lexFrom 0 source

end Lexeme

end PageEngine
