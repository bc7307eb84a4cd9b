import PageEngine.Text.Bytes
import PageEngine.Text.Segments
import PageEngine.Dictionary

/-! A tree of files and directories, and reading a file of it by its path. A path is walked
from a working directory; a dot stays, two dots go up, and beyond the working directory
nothing is known but that there are directories. -/

namespace PageEngine

inductive FileTree where
  | file (bytes : ByteArray)
  | directory (entries : List (String × FileTree))
  deriving Inhabited

/-- Why a file cannot be read. -/
inductive ReadFailure where
  | notFound
  | notADirectory
  | isADirectory
  | nameTooLong
  | nulInName
  | notText
  deriving DecidableEq, Repr

/-- The text that the system gives for a failure. -/
def ReadFailure.reason : ReadFailure → String
  | .notFound => "No such file or directory (os error 2)"
  | .notADirectory => "Not a directory (os error 20)"
  | .isADirectory => "Is a directory (os error 21)"
  | .nameTooLong => "File name too long (os error 36)"
  | .nulInName => "file name contained an unexpected NUL byte"
  | .notText => "stream did not contain valid UTF-8"

namespace FileTree

/-- The entries of a directory; a file is none. -/
def entries? : FileTree → Option (List (String × FileTree))
  | .file _ => none
  | .directory entries => some entries

/-- The longest name of an entry, in bytes. -/
def nameLimit : Nat := 255

/-- The longest path, in bytes. -/
def pathLimit : Nat := 4095

/-- Walk along the names of a path, from a directory inside others, innermost first. -/
def walk (here : FileTree) (outer : List FileTree) : List String → Except ReadFailure FileTree
  | [] => .ok here
  | name :: rest =>
    match here.entries? with
    | none => .error .notADirectory
    | some entries =>
      if name = "" || name = "." then walk here outer rest
      else if name = ".." then
        match outer with
        | [] => walk (.directory []) [] rest
        | above :: outer => walk above outer rest
      else if nameLimit < name.utf8ByteSize then .error .nameTooLong
      else match Dictionary.get? name entries with
        | none => .error .notFound
        | some next => walk next (here :: outer) rest

/-- What lies at a path, seen from the working directory `tree`. -/
def find (tree : FileTree) (path : String) : Except ReadFailure FileTree :=
  let cs := path.toList
  if cs.contains '\x00' then .error .nulInName
  else if pathLimit < Text.byteLength cs then .error .nameTooLong
  else
    let (first, rest) := Text.segments '/' cs
    let names := rest.map String.ofList
    if cs.isEmpty then .error .notFound
    else if first.isEmpty then walk (.directory []) [] names
    else walk tree [] (String.ofList first :: names)

/-- Read the text of the file at a path. -/
def readText (tree : FileTree) (path : String) : Except ReadFailure String :=
  match tree.find path with
  | .error e => .error e
  | .ok (.directory _) => .error .isADirectory
  | .ok (.file bytes) =>
    match String.fromUTF8? bytes with
    | some text => .ok text
    | none => .error .notText

/-- Put something into a tree; directories on the way are made. -/
def insert (here : FileTree) : List String → FileTree → FileTree
  | [], new => new
  | name :: rest, new =>
    let entries := here.entries?.getD []
    let old := (Dictionary.get? name entries).getD (.directory [])
    .directory (Dictionary.insert name (old.insert rest new) entries)

end FileTree

/-- A path below a root. An absolute path stands for itself. -/
def joinPath (root path : String) : String :=
  if path.startsWith "/" || root.isEmpty then path
  else if root.endsWith "/" then root ++ path
  else root ++ "/" ++ path

end PageEngine
