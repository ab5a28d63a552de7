import Proviso.Bytecode
import Proviso.Host
import Proviso.Stack
import Proviso.Store

/-!
# Effects of instructions

What an instruction may touch: the operand stack, the storage, and the host. It has no hand in
where the program goes on. Every request to the host is written to a journal.
-/

namespace Proviso

/-- A request that an instruction made, and whether the host granted it. -/
structure Request where
  opcode : Opcode
  call : HostCall
  granted : Bool
  deriving DecidableEq

/-- What instructions work on. The journal has the latest request first. -/
structure Workspace (σ : Type) where
  /-- The account whose storage is local. -/
  account : Address
  stack : Stack
  store : σ
  host : Host
  journal : List Request

/-- An effect on a workspace, or a fault; what happened before a fault stands. -/
abbrev Effect (σ : Type) := Act Fault (Workspace σ)

namespace Effect

variable {σ α : Type}

/-- An act on the operand stack. -/
def onStack (x : Act Fault Stack α) : Effect σ α :=
  x.within Workspace.stack fun s w => { w with stack := s }

/-- Pushes a cell. -/
def push (c : Cell) : Effect σ Unit :=
  onStack (Stack.push c)

/-- Pushes a result, if there is one. -/
def pushResult (r : Except Fault Cell) : Effect σ Unit := do
  push (← Act.lift r)

variable [Store σ]

/-- The word in a slot of an account. -/
def load (a : Address) (k : Slot) : Effect σ Word :=
  Act.look fun w => Store.load w.store a k

/-- The word in a local slot. -/
def loadLocal (k : Slot) : Effect σ Word :=
  Act.look fun w => Store.load w.store w.account k

/-- Writes a local slot. -/
def storeLocal (k : Slot) (v : Word) : Effect σ Unit :=
  Act.update fun w => { w with store := Store.put w.store w.account k v }

/-- The account whose address a local slot holds. -/
def party (k : Slot) : Effect σ Address := do
  return (← loadLocal k).toAddress

/-- Who an account is takes one look at the storage. -/
theorem party_eq (k : Slot) :
    (party k : Effect σ Address)
      = Act.look fun w => (Store.load w.store w.account k).toAddress :=
  rfl

omit [Store σ]

/-- Makes a request of the host; one that is refused is a fault, one that is granted pushes a
true flag. -/
def request (op : Opcode) (call : HostCall) : Effect σ Unit := do
  let granted ← (fun w =>
    let (granted, host) := w.host.submit call
    (.ok granted, { w with host := host, journal := ⟨op, call, granted⟩ :: w.journal })
    : Effect σ Bool)
  if granted then push (.flag true) else Act.fail (.externalCallFailed op.mnemonic)

end Effect

/-- A stored word as a cell of its kind. -/
def typedCell (op : Opcode) (k : ValueKind) (w : Word) : Except Fault Cell :=
  match k with
  | .uint256 => .ok (.integer w.toUInt256)
  | .bool    => .ok (.flag w.toBool)
  | .address => .ok (.account w.toAddress)
  | .bytes32 => .ok (.word w)
  | .string | .struct =>
    match w.toText? with
    | some s => .ok (.text s)
    | none   => .error (.invalidOperand op.mnemonic "stored text is not UTF-8")

end Proviso
