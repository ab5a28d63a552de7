import Proviso.Log
import Proviso.Machine.Run

/-!
# Settings from the environment

Three variables set the log level and the limits of a run. They are read in a fixed order, and the
first one with a bad value is reported.
-/

namespace Proviso

/-- The settings that the environment gives. -/
structure Config where
  level : Level
  limits : Limits
  deriving DecidableEq

/-- A variable of the environment whose value cannot be used. -/
inductive ConfigError where
  | invalidLevel (name value : String)
  | invalidLimit (name value : String)
  deriving DecidableEq

/-- The message for a variable that cannot be used. -/
def ConfigError.message : ConfigError → String
  | .invalidLevel name value => name ++ ": unknown log level '" ++ value ++ "'"
  | .invalidLimit name value => name ++ ": expected a positive integer, got '" ++ value ++ "'"

namespace Config

/-- The settings of an empty environment. -/
def default : Config := ⟨.info, .default⟩

/-- The variable for the log level. -/
def logVariable : String := "CONDSCRIPT_LOG"

/-- The variable for the limit of the stack. -/
def stackVariable : String := "CONDSCRIPT_MAX_STACK"

/-- The variable for the limit of pending calls. -/
def callsVariable : String := "CONDSCRIPT_MAX_CALL_DEPTH"

/-- A number below `2 ^ 64` in decimal digits, with a plus sign in front or none. -/
def nat64? (s : String) : Option Nat :=
  let digits :=
    match s.toList with
    | '+' :: r => r
    | cs       => cs
  (natOfDigits? digits).filter (· < UInt64.size)

/-- A limit is a positive number; white space around it does not count. -/
def readLimit (name value : String) : Except ConfigError Nat :=
  match nat64? (Text.trim value) with
  | some n => if n = 0 then .error (.invalidLimit name value) else .ok n
  | none   => .error (.invalidLimit name value)

/-- A setting that keeps its default if its variable is not set. -/
def setting {α : Type} (value : Option String) (default : α)
    (read : String → Except ConfigError α) : Except ConfigError α :=
  match value with
  | none   => .ok default
  | some s => read s

/-- Reads the settings. -/
def ofEnvironment (lookup : String → Option String) : Except ConfigError Config := do
  let level ← setting (lookup logVariable) default.level fun s =>
    (Level.ofName s).mapError (.invalidLevel logVariable)
  let maxStack ← setting (lookup stackVariable) default.limits.maxStack (readLimit stackVariable)
  let maxCalls ← setting (lookup callsVariable) default.limits.maxCalls (readLimit callsVariable)
  return ⟨level, ⟨maxStack, maxCalls⟩⟩

end Config

end Proviso
