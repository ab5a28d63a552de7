import Proviso.Act
import Proviso.Fault
import Proviso.Instr

/-!
# Reading instructions from bytes

A reader walks over the bytes of a program and takes the operands that the table of opcodes asks
for. What it has read stays read: the position it leaves is the one behind the last bytes it took,
also when it fails. Listings take operands as they are (`Reader.anyOperand`). With the checks that
execution makes on the way (`Reader.runnable`) the reader is what the handlers of the machine, each
of which reads its own operands, are compared with.

Main statement: an instruction takes at least one byte and ends inside the program
(`decodeAt_bounds`).
-/

namespace Proviso

/-- A read that failed. A struct instruction that breaks off keeps the fields read so far. -/
structure ReadFailure where
  fault : Fault
  fields : List Field

/-- Reads bytes of a program from a position on. -/
abbrev Reader := Act ReadFailure Nat

namespace Reader

variable (code : Array UInt8)

/-- Stops with a fault, and no fields. -/
def fail {α : Type} (f : Fault) : Reader α :=
  Act.fail ⟨f, []⟩

/-- The next `n` bytes. -/
def octets (n : Nat) : Reader (Octets n) := fun pc =>
  if h : pc + n ≤ code.size then
    (.ok ⟨(code.extract pc (pc + n)).toList, by simp; omega⟩, pc + n)
  else
    (.error ⟨.endOfBytecode pc n (code.size - pc), []⟩, pc)

/-- The next byte. -/
def byte : Reader UInt8 := fun pc =>
  if h : pc < code.size then (.ok code[pc], pc + 1)
  else (.error ⟨.endOfBytecode pc 1 (code.size - pc), []⟩, pc)

/-- The kind that the next byte names. -/
def kind (op : Opcode) : Reader ValueKind := do
  let c ← byte code
  Act.orFail ⟨.invalidVariant op.mnemonic c, []⟩ (ValueKind.ofCode? c)

/-- A slot, a kind and a word. -/
def field (op : Opcode) : Reader Field := do
  let slot ← octets code 4
  let k ← kind code op
  let value ← octets code 32
  return ⟨slot, k, value⟩

/-- So many fields; one that cannot be read leaves those before it. -/
def fieldList (op : Opcode) : Nat → Reader (List Field)
  | 0     => return []
  | n + 1 => do
    let f ← field code op
    let fs ← (fieldList op n).mapError fun e => ⟨e.fault, f :: e.fields⟩
    return f :: fs

/-- An operand of a kind; a value is a word behind its kind, and struct fields stand behind their
number. -/
def operand (op : Opcode) : (k : OperandKind) → Reader (Operand Nat k)
  | .variant => kind code op
  | .slot    => octets code 4
  | .int     => do return UInt256.ofOctets (← octets code 32)
  | .flag    => do return (← byte code) != 0
  | .account => octets code 20
  | .word    => octets code 32
  | .label   => do return (← octets code 2).toNat
  | .name    => octets code 32
  | .value   => do
    let k ← kind code op
    let w ← octets code 32
    return (k, w)
  | .fields  => do
    let count ← byte code
    fieldList code op count.toNat

/-- What is wrong with an operand of an opcode, if anything. -/
abbrev Check := Opcode → (k : OperandKind) → Operand Nat k → Option Fault

/-- The operands of an opcode, each checked when it has been read. -/
def operands (check : Check) (op : Opcode) : (ps : List Param) → Reader (Operands Nat ps)
  | []      => return ()
  | p :: ps => do
    let a ← operand code op p.kind
    match check op p.kind a with
    | some f => fail f
    | none   =>
      let as ← operands check op ps
      return (a, as)

/-- The instruction whose first byte is `c`, read at `offset`. -/
def instrOf (check : Check) (offset : Nat) (c : UInt8) : Reader (Instr Nat) :=
  match Opcode.ofCode? c with
  | none    => fail (.unknownOpcode c offset)
  | some op => do
    let as ← operands code check op op.params
    return ⟨op, as⟩

/-- Operands as they are, for listings. -/
def anyOperand : Check := fun _ _ _ => none

end Reader

/-- A name has to be a text that is not empty. -/
def nameText? (w : Word) : Option String :=
  w.toText?.filter (· ≠ "")

/-- The fault of an operand that should be a name and is none. -/
def Fault.badName (op : Opcode) : Fault :=
  .invalidOperand op.mnemonic "name is empty or not UTF-8"

/-- What execution asks of an operand: a type that the opcode supports, a name that is a text. -/
def Reader.runnable : Reader.Check := fun op k =>
  match k with
  | .variant => fun kind =>
      if op.variants.contains kind then none else some (.invalidVariant op.mnemonic kind.code)
  | .name => fun w => if (nameText? w).isSome then none else some (.badName op)
  | _ => fun _ => none

/-- The instruction at an offset, and the offset behind what was read. -/
def decodeAt (check : Reader.Check) (code : Array UInt8) (pc : Nat) :
    Except ReadFailure (Instr Nat) × Nat :=
  (Reader.byte code >>= Reader.instrOf code check pc) pc

/-- A byte is a string of one byte. -/
theorem Reader.byte_eq (code : Array UInt8) :
    byte code = octets code 1 >>= fun bs => pure bs.head := by
  funext pc
  rw [Act.bind_apply, byte, octets]
  by_cases h : pc < code.size
  · have hbyte : (code.extract pc (pc + 1)).toList = [code[pc]] := by
      simp [List.take_one, h]
    rw [dif_pos h, dif_pos (Nat.succ_le_of_lt h)]
    simp only [Octets.head, hbyte]
    rfl
  · rw [dif_neg h, dif_neg (fun hle => h (Nat.lt_of_succ_le hle))]

/-! ### Where a reader stops

A reader never moves back and never leaves the program. -/

namespace Reader

variable {code : Array UInt8} {α β : Type}

/-- The reader moves forward, and stays inside a program that it starts in. -/
def Forward (code : Array UInt8) (r : Reader α) : Prop :=
  ∀ pc, pc ≤ (r pc).2 ∧ (pc ≤ code.size → (r pc).2 ≤ code.size)

theorem Forward.pure (a : α) : Forward code (pure a) :=
  fun _ => ⟨Nat.le_refl _, id⟩

theorem Forward.fail (e : ReadFailure) : Forward code (Act.fail e : Reader α) :=
  fun _ => ⟨Nat.le_refl _, id⟩

theorem Forward.orFail (e : ReadFailure) (o : Option α) :
    Forward code (Act.orFail e o : Reader α) := by
  cases o with
  | none   => exact .fail e
  | some a => exact .pure a

/-- Two readers one after the other go forward if each does. -/
theorem Forward.bind {r : Reader α} {f : α → Reader β} (hr : Forward code r)
    (hf : ∀ a, Forward code (f a)) : Forward code (r >>= f) := by
  intro pc
  have h := hr pc
  rw [Act.bind_apply]
  rcases hrun : r pc with ⟨_ | a, pc'⟩
  · rwa [hrun] at h
  · rw [hrun] at h
    exact ⟨Nat.le_trans h.1 (hf a pc').1, fun hpc => (hf a pc').2 (h.2 hpc)⟩

theorem Forward.mapError (g : ReadFailure → ReadFailure) {r : Reader α} (hr : Forward code r) :
    Forward code (r.mapError g) := by
  intro pc
  have h := hr pc
  rw [Act.mapError]
  rcases hrun : r pc with ⟨_ | a, pc'⟩ <;> rwa [hrun] at h

/-- Bytes are there, and the reader stops behind them; or they are not, and it stays. -/
theorem forward_octets (n : Nat) : Forward code (octets code n) := by
  intro pc
  rw [octets]
  split
  · next h => exact ⟨Nat.le_add_right _ _, fun _ => h⟩
  · exact ⟨Nat.le_refl _, id⟩

theorem forward_byte : Forward code (byte code) := by
  intro pc
  rw [byte]
  split
  · next h => exact ⟨Nat.le_succ _, fun _ => h⟩
  · exact ⟨Nat.le_refl _, id⟩

theorem forward_kind (op : Opcode) : Forward code (kind code op) :=
  forward_byte.bind fun _ => .orFail _ _

theorem forward_field (op : Opcode) : Forward code (field code op) :=
  (forward_octets 4).bind fun _ => (forward_kind op).bind fun _ =>
    (forward_octets 32).bind fun _ => .pure _

theorem forward_fieldList (op : Opcode) (n : Nat) : Forward code (fieldList code op n) := by
  induction n with
  | zero => exact .pure _
  | succ n ih =>
    exact (forward_field op).bind fun _ => (ih.mapError _).bind fun _ => .pure _

theorem forward_operand (op : Opcode) (k : OperandKind) : Forward code (operand code op k) := by
  cases k with
  | variant => exact forward_kind op
  | slot    => exact forward_octets 4
  | int     => exact (forward_octets 32).bind fun _ => .pure _
  | flag    => exact forward_byte.bind fun _ => .pure _
  | account => exact forward_octets 20
  | word    => exact forward_octets 32
  | label   => exact (forward_octets 2).bind fun _ => .pure _
  | name    => exact forward_octets 32
  | value   => exact (forward_kind op).bind fun _ => (forward_octets 32).bind fun _ => .pure _
  | fields  => exact forward_byte.bind fun c => forward_fieldList op c.toNat

/-- Operands are read one behind another, whatever is checked of them. -/
theorem forward_operands (check : Check) (op : Opcode) (ps : List Param) :
    Forward code (operands code check op ps) := by
  induction ps with
  | nil => exact .pure _
  | cons p ps ih =>
    refine (forward_operand op p.kind).bind fun a => ?_
    split
    · exact .fail _
    · exact ih.bind fun _ => .pure _

/-- An instruction is read from its first byte forward. -/
theorem forward_instrOf (check : Check) (offset : Nat) (c : UInt8) :
    Forward code (instrOf code check offset c) := by
  rw [instrOf]
  split
  · exact .fail _
  · exact (forward_operands check _ _).bind fun _ => .pure _

end Reader

/-- An instruction takes at least its opcode's byte, and ends inside the program. -/
theorem decodeAt_bounds (check : Reader.Check) (code : Array UInt8) {pc : Nat}
    (h : pc < code.size) :
    pc < (decodeAt check code pc).2 ∧ (decodeAt check code pc).2 ≤ code.size := by
  have hb : Reader.byte code pc = (.ok code[pc], pc + 1) := dif_pos h
  have hf := (Reader.forward_instrOf check pc code[pc] : Reader.Forward code _) (pc + 1)
  rw [decodeAt, Act.bind_apply, hb]
  exact ⟨hf.1, hf.2 h⟩

end Proviso
