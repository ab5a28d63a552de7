import Proviso.Text.Blank

/-!
# Log records

What a command reports besides its output. A record has a level, and records below the level asked
for are left out.
-/

namespace Proviso

/-- How much a record matters. -/
inductive Level where
  | debug | info | warn | error
  deriving DecidableEq, Repr

namespace Level

/-- All levels, the least first. -/
def all : List Level := [.debug, .info, .warn, .error]

/-- The rank of a level. -/
def severity : Level → Nat
  | .debug => 0
  | .info  => 1
  | .warn  => 2
  | .error => 3

/-- The name of a level in a record. -/
def title : Level → String
  | .debug => "DEBUG"
  | .info  => "INFO"
  | .warn  => "WARN"
  | .error => "ERROR"

/-- Whether records of level `l` are kept when `threshold` is asked for. -/
def enabled (threshold l : Level) : Bool :=
  threshold.severity ≤ l.severity

/-- A text with the letters `A` to `Z` in lower case. -/
def lowerCase (s : String) : String :=
  s.map fun c => if 'A' ≤ c ∧ c ≤ 'Z' then Char.ofNat (c.toNat + 32) else c

/-- Reads the name of a level in any case, with white space around it; what is no name is given
back. -/
def ofName (s : String) : Except String Level :=
  let name := lowerCase (Text.trim s)
  if name = "debug" then .ok .debug
  else if name = "info" then .ok .info
  else if name = "warn" ∨ name = "warning" then .ok .warn
  else if name = "error" then .ok .error
  else .error name

end Level

/-- A line of the log. -/
structure Record where
  level : Level
  text : String
  deriving DecidableEq

/-- The level in brackets, then the text. -/
def Record.render (r : Record) : String :=
  "[" ++ r.level.title ++ "] " ++ r.text ++ "\n"

end Proviso
