import Proviso.Opcode
import Proviso.Slot

/-!
# Instructions

An instruction is an opcode with the operands its parameters ask for; the type of an operand
follows from its kind. Branch targets are of a type `L` of their own: names in a program that is
still to be linked, offsets in one that is.
-/

namespace Proviso

/-- One field of a struct instruction: where it is stored, and what. -/
structure Field where
  slot : Slot
  kind : ValueKind
  value : Word
  deriving DecidableEq

/-- What an operand of each kind holds. -/
@[reducible] def Operand (L : Type) : OperandKind → Type
  | .variant => ValueKind
  | .slot    => Slot
  | .int     => UInt256
  | .flag    => Bool
  | .account => Address
  | .word    => Word
  | .label   => L
  | .name    => Word
  | .value   => ValueKind × Word
  | .fields  => List Field

/-- One operand for each parameter. -/
@[reducible] def Operands (L : Type) : List Param → Type
  | []      => Unit
  | p :: ps => Operand L p.kind × Operands L ps

/-- An instruction: an opcode with the operands that it takes. -/
structure Instr (L : Type) where
  opcode : Opcode
  operands : Operands L opcode.params

variable {L M : Type}

/-! ### Size -/

/-- Bytes of a struct field: a slot, a kind and a word. -/
def Field.width : Nat := 37

/-- Bytes of an operand. -/
def Operand.size : (k : OperandKind) → Operand L k → Nat
  | .variant, _ | .flag, _           => 1
  | .slot, _                         => 4
  | .label, _                        => 2
  | .account, _                      => 20
  | .int, _ | .word, _ | .name, _    => 32
  | .value, _                        => 33
  | .fields, fs                      => 1 + fs.length * Field.width

/-- The number of bytes of the operands together. -/
def Operands.size : (ps : List Param) → Operands L ps → Nat
  | [],      _       => 0
  | p :: ps, (a, as) => Operand.size p.kind a + Operands.size ps as

/-- Bytes of an instruction. -/
def Instr.size (i : Instr L) : Nat :=
  1 + Operands.size i.opcode.params i.operands

/-! ### Labels -/

/-- The labels that an operand names: itself, if it is one. -/
def Operand.labels : (k : OperandKind) → Operand L k → List L
  | .label, l => [l]
  | .variant, _ | .slot, _ | .int, _ | .flag, _ | .account, _ | .word, _ | .name, _ | .value, _
  | .fields, _ => []

/-- The labels among the operands, in order. -/
def Operands.labels : (ps : List Param) → Operands L ps → List L
  | [],      _       => []
  | p :: ps, (a, as) => Operand.labels p.kind a ++ Operands.labels ps as

/-- The branch targets of an instruction, in order. -/
def Instr.labels (i : Instr L) : List L :=
  Operands.labels i.opcode.params i.operands

/-- The operand with its label replaced; one that is no label stays as it is. -/
def Operand.mapLabels (f : L → M) : (k : OperandKind) → Operand L k → Operand M k
  | .label,   l => f l
  | .variant, a => a
  | .slot,    a => a
  | .int,     a => a
  | .flag,    a => a
  | .account, a => a
  | .word,    a => a
  | .name,    a => a
  | .value,   a => a
  | .fields,  a => a

/-- The operands with each label replaced. -/
def Operands.mapLabels (f : L → M) : (ps : List Param) → Operands L ps → Operands M ps
  | [],      _       => ()
  | p :: ps, (a, as) => (Operand.mapLabels f p.kind a, Operands.mapLabels f ps as)

/-- The same instruction with every branch target renamed. -/
def Instr.mapLabels (f : L → M) (i : Instr L) : Instr M :=
  ⟨i.opcode, Operands.mapLabels f i.opcode.params i.operands⟩

/-! ### Bytes -/

/-- The bytes of a field: its slot, the code of its kind, its value. -/
def Field.encode (f : Field) : List UInt8 :=
  f.slot.bytes ++ f.kind.code :: f.value.bytes

/-- The bytes of an operand; offsets take two, most significant first, and struct fields stand
behind their number. -/
def Operand.encode : (k : OperandKind) → Operand Nat k → List UInt8
  | .variant, k      => [k.code]
  | .slot,    s      => s.bytes
  | .int,     v      => v.toOctets.bytes
  | .flag,    b      => [if b then 1 else 0]
  | .account, a      => a.bytes
  | .word,    w      => w.bytes
  | .label,   n      => bytesOfNat 2 n
  | .name,    w      => w.bytes
  | .value,   (k, w) => k.code :: w.bytes
  | .fields,  fs     => UInt8.ofNat fs.length :: fs.flatMap Field.encode

/-- The bytes of the operands, one after another. -/
def Operands.encode : (ps : List Param) → Operands Nat ps → List UInt8
  | [],      _       => []
  | p :: ps, (a, as) => Operand.encode p.kind a ++ Operands.encode ps as

/-- The opcode's byte, then its operands. -/
def Instr.encode (i : Instr Nat) : List UInt8 :=
  i.opcode.code :: Operands.encode i.opcode.params i.operands

end Proviso
