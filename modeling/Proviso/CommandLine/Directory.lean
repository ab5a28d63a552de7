import Proviso.CommandLine.Command

/-!
# Commands in a directory in memory

A directory of files held in memory, so that a command can be tried without a disk. Paths are
looked up part by part from the directory; what is wrong with one is said in the words of the
operating system.
-/

namespace Proviso

/-- Files by the parts of their paths. A directory is a beginning of such a path. -/
structure Directory where
  files : List (List String × List UInt8)

namespace Directory

/-- The error for a path where nothing is. -/
def missing : String := "No such file or directory (os error 2)"

/-- The error for a path that goes on behind a file. -/
def notDirectory : String := "Not a directory (os error 20)"

/-- The error for a directory that is used as a file. -/
def isDirectory : String := "Is a directory (os error 21)"

/-- The error for a path, or a part of one, that is too long. -/
def nameTooLong : String := "File name too long (os error 36)"

/-- The most bytes that a name can have. -/
def maxName : Nat := 255

/-- The most bytes that a path can have. -/
def maxPath : Nat := 4095

/-- Where a path leads: to a directory above this one, of which nothing is known, or to a place in
this one. -/
inductive Place where
  | above
  | inside (parts : List String)
  deriving DecidableEq

/-- What stands at a place. -/
inductive Node where
  | nothing
  | directory
  | file (bytes : List UInt8)

/-- A file is found by the whole path, a directory by a beginning of one. -/
def node (d : Directory) : Place → Node
  | .above        => .directory
  | .inside parts =>
    match d.files.lookup parts with
    | some bytes => .file bytes
    | none       =>
      if parts.isEmpty || d.files.any (fun f => parts.isPrefixOf f.1) then .directory
      else .nothing

/-- The directory that a place is in. -/
def Place.parent : Place → Place
  | .above        => .above
  | .inside []    => .above
  | .inside parts => .inside parts.dropLast

/-- The entry of a directory with a name. -/
def Place.entry (name : String) : Place → Except String Place
  | .above        => .error (if maxName < (utf8 name).length then nameTooLong else missing)
  | .inside parts =>
    if maxName < (utf8 name).length then .error nameTooLong else .ok (.inside (parts ++ [name]))

/-- Goes from a directory to one of its entries, which need not exist. -/
def enter (d : Directory) (place : Place) (part : String) : Except String Place :=
  match d.node place with
  | .nothing   => .error missing
  | .file _    => .error notDirectory
  | .directory =>
    if part = "" ∨ part = "." then .ok place
    else if part = ".." then .ok place.parent
    else place.entry part

/-- The place that the parts of a path lead to. -/
def walk (d : Directory) : Place → List String → Except String Place
  | place, []     => .ok place
  | place, p :: r =>
    match d.enter place p with
    | .error e   => .error e
    | .ok place' => d.walk place' r

/-- The place that a path starts from: this directory, or the root if a slash is in front. -/
def start (path : String) : Place :=
  if path.toList.head? = some '/' then .above else .inside []

/-- The parts of a path between its slashes. -/
def parts (path : String) : List String :=
  (Path.parts path.toList).map String.ofList

/-- What is wrong with a path wherever it leads. -/
def badPath? (path : String) : Option String :=
  if path = "" then some missing
  else if maxPath < (utf8 path).length then some nameTooLong
  else none

/-- The place that a path leads to. -/
def locate (d : Directory) (path : String) : Except String Place :=
  match badPath? path with
  | some e => .error e
  | none   => d.walk (start path) (parts path)

/-- The bytes of the file at a path. -/
def read (d : Directory) (path : String) : Except String (List UInt8) :=
  match d.locate path with
  | .error e  => .error e
  | .ok place =>
    match d.node place with
    | .nothing    => .error missing
    | .directory  => .error isDirectory
    | .file bytes => .ok bytes

/-- The directory with a file under the given parts, in place of one that was there. -/
def put (d : Directory) (parts : List String) (bytes : List UInt8) : Directory :=
  ⟨d.files.filter (fun f => f.1 != parts) ++ [(parts, bytes)]⟩

/-- The parts before a last name that has a slash behind it. -/
def beforeSlashed? (parts : List String) : Option (List String) :=
  if parts.getLast? = some "" then
    match parts.reverse.dropWhile (· = "") with
    | []             => none
    | name :: before => if name = "." ∨ name = ".." then none else some before.reverse
  else none

/-- The place that a file with a path would be at. A name with a slash behind it is one of a
directory, whatever stands there, as soon as the directory that it is in has been found. -/
def target (d : Directory) (path : String) : Except String Place :=
  match beforeSlashed? (parts path) with
  | none        => d.locate path
  | some before =>
    match badPath? path with
    | some e => .error e
    | none   =>
      match d.walk (start path) (before ++ [""]) with
      | .error e => .error e
      | .ok _    => .error isDirectory

/-- Writes a file, in a directory that exists. -/
def write (d : Directory) (path : String) (bytes : List UInt8) : Except String Directory :=
  match d.target path with
  | .error e            => .error e
  | .ok .above          => .error isDirectory
  | .ok (.inside parts) =>
    match d.node (.inside parts) with
    | .directory         => .error isDirectory
    | .nothing | .file _ => .ok (d.put parts bytes)

/-- Runs a command line: its report, and the directory afterwards. -/
def runCommand (d : Directory) (lookup : String → Option String) (args : List String) :
    Report × Directory :=
  match Command.ofArguments lookup args with
  | .error r     => (r, d)
  | .ok (c, cmd) =>
    match Command.execute c cmd (d.read cmd.input) with
    | .done r                  => (r, d)
    | .write path bytes report =>
      match d.write path bytes with
      | .error e => (report (some e), d)
      | .ok d'   => (report none, d')

end Directory

end Proviso
