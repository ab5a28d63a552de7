import Proviso.Act
import Proviso.Registry

/-!
# Registries with their indexes

A registry as it is kept: the entries in the order of their registration, a map from names and a
table of bytes that say where an entry stands, and the aliases that tokens go through. Registration
writes all three one after another, so that a look-up takes one step and not a search.

What a registry holds is a `Registry`: the entries alone.
-/

namespace Proviso

/-- The byte of an entry is a place in the table of bytes. -/
theorem Entry.code_lt (e : Entry) : e.code.toNat < 256 :=
  e.code.toNat_lt

/-- A registry whose names and bytes lead to places among its entries. -/
structure Registry.Index where
  /-- The entries, in the order they were registered. -/
  entries : Array Entry
  /-- The place of the entry of each name, the latest first. -/
  names : List (String × Nat)
  /-- The place of the entry of each byte. -/
  codes : Vector (Option Nat) 256
  /-- The names that stand for others. -/
  aliases : List (String × String)

namespace Registry.Index

/-- A registry without entries, with the alias that every registry has. -/
def empty : Index where
  entries := #[]
  names := []
  codes := .replicate 256 none
  aliases := [("uint", "uint256")]

/-- Adds an entry; a name or a byte that is taken is refused, the name first. -/
def register (e : Entry) : Act RegistryError Index Unit := do
  if (← Act.look fun r => (r.names.lookup e.name).isSome) then
    Act.fail (.duplicateName e.name)
  else
    match ← Act.look fun r => r.codes.get e.code.toFin with
    | some i =>
      let holder ← Act.look fun r => ((r.entries[i]?).map Entry.name).getD ""
      Act.fail (.duplicateCode e.code holder)
    | none =>
      let i ← Act.look fun r => r.entries.size
      Act.update fun r => { r with names := (e.name, i) :: r.names }
      Act.update fun r => { r with codes := r.codes.set e.code.toNat (some i) e.code_lt }
      Act.update fun r => { r with entries := r.entries.push e }

/-- The entry that a token of a program names. -/
def lookup? (r : Index) (token : String) : Option Entry :=
  (r.names.lookup ((r.aliases.lookup token).getD token)).bind fun i => r.entries[i]?

/-- The entry of a byte. -/
def byCode? (r : Index) (code : UInt8) : Option Entry :=
  (r.codes.get code.toFin).bind fun i => r.entries[i]?

/-- Registers entries one after another, and gives the answer to each. A refusal does not stop the
rest. -/
def registerAll : List Entry → Index → List (Except RegistryError Unit) × Index
  | [],      r => ([], r)
  | e :: es, r =>
    let (answer, r) := register e r
    let (answers, r) := registerAll es r
    (answer :: answers, r)

/-- What a registry holds. -/
def toRegistry (r : Index) : Registry :=
  ⟨r.entries.toList⟩

/-- The whole instruction set, registered in the order of the table. -/
def standard : Index :=
  (registerAll (Opcode.all.map .ofOpcode) empty).2

end Registry.Index

/-- Exactly the given opcodes, under their own names and bytes; an opcode given again is
ignored. -/
def Registry.ofOpcodes (ops : List Opcode) : Registry :=
  (Index.registerAll (ops.map .ofOpcode) .empty).2.toRegistry

end Proviso
