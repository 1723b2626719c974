/-!
# Paths

A path is read as names between slashes. Resolving a path against a base directory gives an absolute
path without empty names, single dots or double dots. The base is absolute.
-/
namespace Lisplet.Path

/-- The names between the slashes of a path, empty ones included. -/
def names (path : List Char) : List (List Char) :=
  path.foldr (fun c acc =>
    if c = '/' then [] :: acc
    else match acc with
      | [] => [[c]]
      | name :: rest => (c :: name) :: rest) [[]]

/-- Whether a path starts at the root. -/
def isAbsolute (path : String) : Bool := path.toList.head? == some '/'

/-- One name more on a row of names kept in reverse: a dot changes nothing, two dots go back. -/
def push (stack : List (List Char)) (name : List Char) : List (List Char) :=
  if name = [] ∨ name = ['.'] then stack
  else if name = ['.', '.'] then stack.drop 1
  else name :: stack

/-- The absolute path of names in order. -/
def ofNames (names : List (List Char)) : String :=
  if names.isEmpty then "/" else String.ofList (names.flatMap ('/' :: ·))

/-- The names of a path from the root, dots resolved. -/
def normalNames (path : String) : List (List Char) :=
  ((names path.toList).foldl push []).reverse

/-- A path seen from a base directory, as an absolute path in normal form. -/
def resolve (base path : String) : String :=
  ofNames (normalNames (if isAbsolute path then path else base ++ "/" ++ path))

/-- The directory an absolute path in normal form lies in. -/
def parent (path : String) : String := ofNames (normalNames path).dropLast

end Lisplet.Path
