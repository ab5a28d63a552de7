import Proviso.CommandLine.Directory

/-!
# The program

Reads the input file of a command, carries the command out, and writes what it asks for.
-/

namespace Proviso.Shell

/-- Why a file could not be used. A code comes with either sign. -/
def describeError : IO.Error → String
  | .noFileOrDirectory .. | .noSuchThing ..  => Directory.missing
  | .permissionDenied ..                     => "Permission denied (os error 13)"
  | .inappropriateType _ code _              =>
      if code = 20 ∨ code = 0 - 20 then Directory.notDirectory else Directory.isDirectory
  | e@(.invalidArgument _ code _)            =>
      if code = 36 ∨ code = 0 - 36 then Directory.nameTooLong else toString e
  | e                                        => toString e

/-- The bytes of a file, or why they could not be read. -/
def readBytes (path : String) : IO (Except String (List UInt8)) := do
  try
    return .ok (← IO.FS.readBinFile path).toList
  catch e =>
    return .error (describeError e)

/-- Writes a file, and says why if that fails. -/
def writeBytes (path : String) (bytes : List UInt8) : IO (Option String) := do
  try
    IO.FS.writeBinFile path ⟨bytes.toArray⟩
    return none
  catch e =>
    return some (describeError e)

/-- The variables that settings are read from. -/
def environment : IO (String → Option String) := do
  let names := [Config.logVariable, Config.stackVariable, Config.callsVariable]
  let values ← names.mapM fun name => do return (name, ← IO.getEnv name)
  return fun name => (values.lookup name).join

/-- Prints a report. -/
def conclude (r : Report) : IO UInt32 := do
  IO.print r.output
  for record in r.log do
    IO.eprint record.render
  return r.exit

end Proviso.Shell

open Proviso Proviso.Shell in
/-- Carries out the command that the arguments ask for. -/
def main (args : List String) : IO UInt32 := do
  match Command.ofArguments (← environment) args with
  | .error r     => conclude r
  | .ok (c, cmd) =>
    match Command.execute c cmd (← readBytes cmd.input) with
    | .done r                  => conclude r
    | .write path bytes report => conclude (report (← writeBytes path bytes))
