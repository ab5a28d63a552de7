import Proviso.Machine.Effect
import Proviso.Machine.Program

/-!
# Machines

A machine is a program under way with the workspace that its instructions work on. Its reads take
bytes of the program and move the position behind them; each gives the operand that the bytes write,
or the fault of bytes that write none.
-/

namespace Proviso

/-- Bounds on the operand stack and on nested branches. -/
structure Limits where
  maxStack : Nat
  maxCalls : Nat
  deriving DecidableEq

/-- Room for 1024 cells and 64 nested branches. -/
def Limits.default : Limits := ⟨1024, 64⟩

/-- A program under way, how deep its branches may nest, and what it works on. -/
structure Machine (σ : Type) where
  program : Program
  maxCalls : Nat
  work : Workspace σ

namespace Machine

variable {σ α : Type}

/-- A machine without a program. -/
def fresh (account : Address) (limits : Limits) (store : σ) (host : Host) : Machine σ where
  program := .ofCode #[]
  maxCalls := limits.maxCalls
  work := ⟨account, .empty limits.maxStack, store, host, []⟩

/-- The machine at the start of another program, with an empty stack. -/
def load (m : Machine σ) (code : Array UInt8) : Machine σ :=
  { m with
    program := .ofCode code
    work := { m.work with stack := m.work.stack.clear } }

/-- The limits that the machine was made with. -/
def limits (m : Machine σ) : Limits :=
  ⟨m.work.stack.limit, m.maxCalls⟩

/-- The topmost cell. -/
def top? (m : Machine σ) : Option Cell :=
  m.work.stack.top?

/-- An act on the program and its position. -/
def onProgram (x : Act Fault Program α) : Act Fault (Machine σ) α :=
  x.within program fun p m => { m with program := p }

/-- An effect on the workspace. -/
def onWork (x : Effect σ α) : Act Fault (Machine σ) α :=
  x.within work fun w m => { m with work := w }

/-! ### Reading operands -/

/-- The next `n` bytes of the program. -/
def readOctets (n : Nat) : Act Fault (Machine σ) (Octets n) :=
  onProgram (Program.read n)

/-- The next byte. -/
def readByte : Act Fault (Machine σ) UInt8 := do
  return (← readOctets 1).head

/-- The slot of a variable. -/
def readSlot : Act Fault (Machine σ) Slot :=
  readOctets 4

/-- An integer, most significant byte first. -/
def readInteger : Act Fault (Machine σ) UInt256 := do
  return .ofOctets (← readOctets 32)

/-- A flag, which every byte but zero sets. -/
def readFlag : Act Fault (Machine σ) Bool := do
  return (← readByte) != 0

/-- An account. -/
def readAccount : Act Fault (Machine σ) Address :=
  readOctets 20

/-- A word. -/
def readWord : Act Fault (Machine σ) Word :=
  readOctets 32

/-- A position in the program. -/
def readLabel : Act Fault (Machine σ) Nat := do
  return (← readOctets 2).toNat

/-- A name, which has to be a text and not empty. -/
def readName (op : Opcode) : Act Fault (Machine σ) String := do
  Act.orFail (.badName op) (nameText? (← readWord))

/-- A kind, whichever it is. -/
def readKind (op : Opcode) : Act Fault (Machine σ) ValueKind := do
  let c ← readByte
  Act.orFail (.invalidVariant op.mnemonic c) (ValueKind.ofCode? c)

/-- A kind that the opcode supports. -/
def readVariant (op : Opcode) : Act Fault (Machine σ) ValueKind := do
  let kind ← readKind op
  if op.variants.contains kind then return kind
  else Act.fail (.invalidVariant op.mnemonic kind.code)

end Machine

end Proviso
