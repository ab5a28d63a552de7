import Proviso.Machine.Effect

/-!
# Arrays and structs in storage

An array keeps its header in the slot of its name and element `i` in the slot of `name[i]`. A
struct keeps each field in the slot of `owner.field`, and the kind of the field's value in the tag
slot beside it. An array of structs holds their names.
-/

namespace Proviso

/-- Adds the terms at `start`, `start + 1`, … one after another, and stops at the first term that
fails or sum that is out of range. -/
def totalFrom (overflow : Fault) (term : Nat → Except Fault UInt256) :
    (count start : Nat) → UInt256 → Except Fault UInt256
  | 0,         _,     total => .ok total
  | count + 1, start, total =>
    match term start with
    | .error f => .error f
    | .ok v    =>
      match total.add? v with
      | none        => .error overflow
      | some total' => totalFrom overflow term count (start + 1) total'

/-- A kind's code in the first byte, zeros behind. -/
def kindWord (k : ValueKind) : Word :=
  ⟨k.code :: List.replicate 31 0, by simp⟩

/-- The kind whose code stands in the first byte. -/
def kindOfWord? (w : Word) : Option ValueKind :=
  w.bytes.head?.bind ValueKind.ofCode?

namespace Effect

variable {σ : Type} [Store σ]

/-- The name that an operand spells. -/
def name (op : Opcode) (w : Word) : Effect σ String :=
  Act.orFail (.badName op) (nameText? w)

/-- The header of an array, which has to be declared. -/
def header (op : Opcode) (array : String) : Effect σ Header := do
  let w ← loadLocal (.ofName array)
  Act.orFail (.undeclaredArray op.mnemonic array) (Header.decode? w)

/-- The elements of the array have to be of the kind asked for. -/
def expectKind (op : Opcode) (array : String) (h : Header) (asked : ValueKind) :
    Effect σ Unit :=
  if h.kind = asked then return ()
  else Act.fail (.arrayTypeMismatch op.mnemonic array h.kind.name asked.name)

/-- Declares an array; to declare it again with the same kind changes nothing. -/
def declare (op : Opcode) (k : ValueKind) (array : String) : Effect σ Unit := do
  match Header.decode? (← loadLocal (.ofName array)) with
  | some h => expectKind op array h k
  | none   => storeLocal (.ofName array) (Header.encode ⟨k, 0⟩)

/-- Appends a value of the array's kind. The length is an unsigned 64-bit integer and wraps: the
value number `2 ^ 64` makes it zero, and the next one takes the place of the first. -/
def append (op : Opcode) (k : ValueKind) (v : Word) (array : String) : Effect σ Unit := do
  let h ← header op array
  expectKind op array h k
  storeLocal (.element array h.length.toNat) v
  storeLocal (.ofName array) (Header.encode ⟨h.kind, h.length + 1⟩)

/-- Pushes an element. -/
def element (op : Opcode) (index : UInt256) (array : String) : Effect σ Unit := do
  let h ← header op array
  if index.toNat < h.length.toNat then
    let w ← loadLocal (.element array index.toNat)
    pushResult (typedCell op h.kind w)
  else
    Act.fail (.indexOutOfBounds op.mnemonic array index.toDecimal h.length.toNat)

/-- Pushes the number of elements. -/
def length (op : Opcode) (array : String) : Effect σ Unit := do
  let h ← header op array
  push (.integer (.ofUInt64 h.length))

/-- Pushes the sum of an array of integers. -/
def sum (op : Opcode) (array : String) : Effect σ Unit := do
  let h ← header op array
  expectKind op array h .uint256
  let w ← Act.state
  let term (i : Nat) : Except Fault UInt256 :=
    .ok (Store.load w.store w.account (.element array i)).toUInt256
  pushResult ((totalFrom (.overflow op.mnemonic) term h.length.toNat 0 .zero).map .integer)

/-- The integer in a field of the struct whose name an element holds. A field that was written
with another kind is a fault; one without a kind counts as an integer. -/
def fieldTerm (op : Opcode) (w : Workspace σ) (array field : String) (i : Nat) :
    Except Fault UInt256 :=
  match (Store.load w.store w.account (.element array i)).toText? with
  | none       => .error (.invalidOperand op.mnemonic "struct element is not a name")
  | some owner =>
    let slot := Slot.field owner field
    let value := (Store.load w.store w.account slot).toUInt256
    match kindOfWord? (Store.load w.store w.account slot.kindTag) with
    | none | some .uint256 => .ok value
    | some k => .error (.typeMismatch op.mnemonic ValueKind.uint256.name k.name)

/-- Pushes the sum of one field over an array of structs. -/
def fieldSum (op : Opcode) (array field : String) : Effect σ Unit := do
  let h ← header op array
  expectKind op array h .struct
  let w ← Act.state
  pushResult
    ((totalFrom (.overflow op.mnemonic) (fieldTerm op w array field) h.length.toNat 0 .zero).map
      .integer)

/-- Stores the fields of a struct and their kinds, one after another. -/
def storeFields : List Field → Effect σ Unit
  | []      => return ()
  | f :: fs => do
    storeLocal f.slot f.value
    storeLocal f.slot.kindTag (kindWord f.kind)
    storeFields fs

end Effect

end Proviso
