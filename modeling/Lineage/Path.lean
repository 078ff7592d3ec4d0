/-
# Paths

A path is a text whose parts stand between slashes. The last part is the name
that a path ends in, and what comes before it is the path's directory. Slashes
at the end of a path do not belong to a name.

Key definitions: `Path.parts`, `Path.name`, `Path.directory`, `Path.join`.
-/
namespace Lineage.Path

/-- The parts of a path, of which there is at least one. A part may be empty. -/
def parts : List Char → List (List Char)
  | [] => [[]]
  | c :: rest =>
    if c = '/' then [] :: parts rest
    else
      match parts rest with
      | [] => [[c]]
      | part :: more => (c :: part) :: more

/-- Whether a path ends in a slash. -/
def endsInSlash (path : List Char) : Bool :=
  path.getLast? == some '/'

/-- A path without the slashes at its end. -/
def withoutEnd (path : List Char) : List Char :=
  (path.reverse.dropWhile (· == '/')).reverse

/-- What follows the last slash of a path. -/
def name (path : List Char) : List Char :=
  (path.reverse.takeWhile (· != '/')).reverse

/-- A path up to its last slash, with that slash. -/
def before (path : List Char) : List Char :=
  (path.reverse.dropWhile (· != '/')).reverse

/-- What comes before the name of a path, without slashes at its end unless
there is nothing else. -/
def directory (path : List Char) : List Char :=
  let above := withoutEnd (before path)
  if above = [] then before path else above

/-- Where a path below a root leads; a path from the top leaves the root aside. -/
def join (root path : String) : String :=
  if path.toList.head? = some '/' then path else s!"{root}/{path}"

end Lineage.Path
