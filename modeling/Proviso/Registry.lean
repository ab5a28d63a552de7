import Proviso.Opcode

/-!
# Registries of opcode names

A registry says which names a program may use and which byte stands for each. Here it is a list of
entries, and a look-up takes the first entry that fits; how a registry is built and indexed stands
in `Registry.Index`. The name `uint` is an alias of `uint256`.
-/

namespace Proviso

/-- An opcode under a name and a byte, with the family whose handler carries it out and the part
that the name plays in an expression. -/
structure Entry where
  name : String
  code : UInt8
  opcode : Opcode
  category : Category
  form : Form
  deriving DecidableEq, Repr

/-- The entry of an opcode under its own name and byte, in its own family and form. -/
def Entry.ofOpcode (op : Opcode) : Entry :=
  ⟨op.mnemonic, op.code, op, op.category, op.form⟩

/-- Why an entry is refused: its name is taken, or its byte is. -/
inductive RegistryError where
  | duplicateName (name : String)
  | duplicateCode (code : UInt8) (holder : String)
  deriving DecidableEq, Repr

/-- The text of a refusal. -/
def RegistryError.message : RegistryError → String
  | .duplicateName name => "opcode name '" ++ name ++ "' is already registered"
  | .duplicateCode code holder =>
      "opcode code " ++ Hex.prefixed [code] ++ " is already registered to '" ++ holder ++ "'"

/-- The entries, in the order they were registered. -/
structure Registry where
  entries : List Entry
  deriving DecidableEq

namespace Registry

/-- The name that an alias stands for; every other name stands for itself. -/
def resolveAlias (name : String) : String :=
  if name = "uint" then "uint256" else name

/-- The first entry of a name. -/
def byName? (r : Registry) (name : String) : Option Entry :=
  r.entries.find? (·.name == name)

/-- The entry that a token of a program names. -/
def lookup? (r : Registry) (token : String) : Option Entry :=
  r.byName? (resolveAlias token)

/-- The first entry of a byte. -/
def byCode? (r : Registry) (code : UInt8) : Option Entry :=
  r.entries.find? (·.code == code)

/-- The form of an operator; other names have none. -/
def operator? (r : Registry) (token : String) : Option Form :=
  (r.lookup? token).bind fun e =>
    if e.form.precedence?.isSome then some e.form else none

/-- Whether a token names a statement. -/
def isStatement (r : Registry) (token : String) : Bool :=
  match r.lookup? token with
  | some e => e.form == .statement
  | none   => false

/-- The whole instruction set. -/
def standard : Registry :=
  ⟨Opcode.all.map .ofOpcode⟩

end Registry

end Proviso
