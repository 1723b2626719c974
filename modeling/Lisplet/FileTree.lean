import Lisplet.Path
import Lisplet.Text.Quoted
/-!
# Trees of files

A tree of files is a list of absolute paths with the text each file holds; the directories are those
the paths run through, and the current one. Opening a path walks it name by name, as a system does, so
a name behind a file or behind something missing fails in its own way.
-/
namespace Lisplet

/-- Why a file cannot be read. -/
inductive FileFailure where
  | missing
  | notADirectory
  | isADirectory
  | nameTooLong
  | zeroInPath
  | other (message : String)
deriving DecidableEq, Repr

/-- The wording of a failure to read `path`. -/
def FileFailure.message (path : String) : FileFailure → String
  | missing => "ENOENT: no such file or directory, open '" ++ path ++ "'"
  | notADirectory => "ENOTDIR: not a directory, open '" ++ path ++ "'"
  | isADirectory => "EISDIR: illegal operation on a directory, read"
  | nameTooLong => "ENAMETOOLONG: name too long, open '" ++ path ++ "'"
  | zeroInPath =>
    "The argument 'path' must be a string, Uint8Array, or URL without null bytes. Received " ++
      Text.inspected path
  | other message => message

/-- Files by their absolute paths, split into names, and the current directory. -/
structure FileTree where
  current : List (List Char)
  files : List (List (List Char) × String)
deriving DecidableEq, Repr

namespace FileTree

/-- What a path leads to. -/
inductive Entry where
  | file (text : String)
  | directory
deriving DecidableEq, Repr

/-- The tree of files given by paths relative to a directory. -/
def ofList (current : String) (files : List (String × String)) : FileTree where
  current := Path.normalNames current
  files := files.map fun (path, text) => (Path.normalNames (Path.resolve current path), text)

/-- What the absolute path of the given names leads to. -/
def entry? (t : FileTree) (names : List (List Char)) : Option Entry :=
  match t.files.lookup names with
  | some text => some (.file text)
  | none =>
    if names.isPrefixOf t.current || t.files.any (fun f => names.isPrefixOf f.1) then some .directory
    else none

/-- The bytes a name may take. -/
def longestName : Nat := 255

/-- Walks on from a directory, kept in reverse. -/
def walk (t : FileTree) (stack : List (List Char)) : List (List Char) → Except FileFailure Entry
  | [] => .ok .directory
  | name :: rest =>
    if name = [] ∨ name = ['.'] then walk t stack rest
    else if name = ['.', '.'] then walk t (stack.drop 1) rest
    else if (String.ofList name).utf8ByteSize > longestName then .error .nameTooLong
    else
      match t.entry? (name :: stack).reverse with
      | none => .error .missing
      | some .directory => walk t (name :: stack) rest
      | some (.file text) => if rest.isEmpty then .ok (.file text) else .error .notADirectory

/-- Opens a path as it is given; a relative one starts at the current directory. -/
def locate (t : FileTree) (path : String) : Except FileFailure Entry :=
  if path = "" then .error .missing
  else if path.toList.contains '\x00' then .error .zeroInPath
  else walk t (if Path.isAbsolute path then [] else t.current.reverse) (Path.names path.toList)

/-- The text of a file. -/
def read (t : FileTree) (path : String) : Except FileFailure String :=
  match t.locate path with
  | .ok (.file text) => .ok text
  | .ok .directory => .error .isADirectory
  | .error e => .error e

/-- Whether a path leads anywhere. -/
def holds (t : FileTree) (path : String) : Bool := (t.locate path).toOption.isSome

end FileTree

end Lisplet
