/-!
# Paths

The parts of a path are what stands between slashes. Empty parts and `.` do not count, except a
`.` at the very start.
-/

namespace Proviso.Path

/-- The pieces between slashes. -/
def parts : List Char → List (List Char)
  | []     => [[]]
  | c :: r =>
    match parts r with
    | []      => [[c]]
    | p :: ps => if c = '/' then [] :: p :: ps else (c :: p) :: ps

/-- A part that names nothing. -/
def isIdle (part : List Char) : Bool :=
  part.isEmpty || part == ['.']

/-- A path, last character first, without slashes and idle parts at its end. A path that is only a
root, or a `.` alone, stays. -/
def trimIdle : List Char → List Char
  | '/' :: c :: r        => trimIdle (c :: r)
  | '.' :: '/' :: r      => if r.isEmpty then ['/'] else trimIdle r
  | path                 => path

/-- What stands behind the last slash, last character first, and what stands before it. -/
def splitName (reversed : List Char) : List Char × List Char :=
  (reversed.takeWhile (· != '/'), reversed.dropWhile (· != '/'))

/-- The last part of a path, if it is a name. -/
def fileName? (path : String) : Option String :=
  let name := (splitName (trimIdle path.toList.reverse)).1.reverse
  if isIdle name || name == ['.', '.'] then none else some (String.ofList name)

/-- The path without its last part. -/
def parent (path : String) : String :=
  String.ofList (trimIdle (splitName (trimIdle path.toList.reverse)).2).reverse

/-- A name without what stands behind its last dot; a dot in front does not count. -/
def stem (name : String) : String :=
  let reversed := name.toList.reverse
  match reversed.dropWhile (· != '.') with
  | _ :: c :: r => String.ofList (c :: r).reverse
  | _           => name

/-- A name inside a directory. -/
def join (directory name : String) : String :=
  match directory.toList.getLast? with
  | none   => name
  | some c => if c = '/' then directory ++ name else directory ++ "/" ++ name

end Proviso.Path
