import Proviso.Machine.Basic
import Proviso.Machine.Perform
import Proviso.Registry

/-!
# Handlers

A step of the machine reads the byte of an opcode and hands the opcode to the handler of its family.
The handler reads the operands of the opcode in an order of its own and works as it goes: an account
is looked up as soon as its slot is read, and a struct field is stored before the next one is read.
A handler that gets an opcode of another family fails.
-/

namespace Proviso

namespace Machine

variable {σ : Type}

/-- The fault of an opcode that came to a handler of another family. -/
def misrouted (op : Opcode) : Act Fault (Machine σ) Unit := do
  let pc ← Act.look fun m => m.program.pc
  Act.fail (.unknownOpcode op.code pc)

/-- Pushes a cell. -/
def push (c : Cell) : Act Fault (Machine σ) Unit :=
  onWork (Effect.push c)

/-- The flag on top of the stack. -/
def popFlag (op : Opcode) : Act Fault (Machine σ) Bool :=
  onWork (Effect.onStack (Stack.popFlag op.mnemonic))

/-- Enters a body, and notes where the branch stands that did. -/
def enter (target : Nat) : Act Fault (Machine σ) Unit := do
  let limit ← Act.look maxCalls
  onProgram (Program.enter limit target)

/-- Equality and order. -/
def comparison : Opcode → Act Fault (Machine σ) Unit
  | .compare c => onWork (Effect.binary c.mnemonic c.apply)
  | op         => do
      let _ ← onWork (Effect.onStack (Stack.popPair op.mnemonic))
      misrouted op

/-- Logic and arithmetic. -/
def logical : Opcode → Act Fault (Machine σ) Unit
  | .connect c => onWork (Effect.binary c.mnemonic c.apply)
  | .not       => do
      let c ← onWork (Effect.onStack (Stack.pop Opcode.not.mnemonic))
      onWork (Effect.pushResult (negate c))
  | .compute a => onWork (Effect.binary a.mnemonic a.apply)
  | op         => misrouted op

/-- Branches and returns. -/
def branching : Opcode → Act Fault (Machine σ) Unit
  | .ifThen => do
      let target ← readLabel
      if ← popFlag .ifThen then enter target else return ()
  | .ifElse => do
      let good ← readLabel
      let bad ← readLabel
      let flag ← popFlag .ifElse
      enter (if flag then good else bad)
  | .call   => do
      let body ← readLabel
      enter body
  | .close  => onProgram Program.leave
  | op      => misrouted op

/-- Literals, and what the host says about block and message. -/
def environment : Opcode → Act Fault (Machine σ) Unit
  | .literal .integer => do
      let v ← readInteger
      push (.integer v)
  | .literal .flag    => do
      let b ← readFlag
      push (.flag b)
  | .literal .account => do
      let a ← readAccount
      push (.account a)
  | .literal .word    => do
      let w ← readWord
      push (.word w)
  | .read r           => do
      let c ← onWork (Effect.reading r)
      push c
  | op                => misrouted op

variable [Store σ]

/-- Variables. -/
def storage : Opcode → Act Fault (Machine σ) Unit
  | .loadLocal  => do
      let kind ← readVariant .loadLocal
      let slot ← readSlot
      let w ← onWork (Effect.loadLocal slot)
      onWork (Effect.pushResult (typedCell .loadLocal kind w))
  | .loadRemote => do
      let kind ← readVariant .loadRemote
      let slot ← readSlot
      let account ← readAccount
      let w ← onWork (Effect.load account slot)
      onWork (Effect.pushResult (typedCell .loadRemote kind w))
  | .set s      => do
      let slot ← readSlot
      let v ← onWork (Effect.popScalar (Opcode.set s).mnemonic s)
      onWork (Effect.storeLocal slot v)
  | op          => misrouted op

/-- The account whose address the next slot holds. -/
def readParty : Act Fault (Machine σ) Address := do
  let slot ← readSlot
  onWork (Effect.party slot)

/-- The amount of a transfer: the next integer, or the one that the next slot holds. -/
def readAmount (op : Opcode) : Act Fault (Machine σ) UInt256 := do
  if op = .transfer then readInteger
  else
    let slot ← readSlot
    let w ← onWork (Effect.loadLocal slot)
    return w.toUInt256

/-- Funds, balances and allowances. -/
def transfer (op : Opcode) : Act Fault (Machine σ) Unit := do
  let self ← onWork Effect.self
  match op with
  | .sendNative   => do
      let receiver ← readParty
      let amount ← readInteger
      onWork (Effect.request op (.sendNative self receiver amount))
  | .transfer | .transferVar => do
      let token ← readParty
      let receiver ← readParty
      let amount ← readAmount op
      onWork (Effect.request op (.tokenTransfer token self receiver amount))
  | .transferFrom => do
      let token ← readParty
      let sender ← readParty
      let receiver ← readParty
      let amount ← readInteger
      onWork (Effect.request op (.tokenTransferFrom token self sender receiver amount))
  | .balanceOf    => do
      let token ← readParty
      let owner ← readParty
      let balance ← onWork (Act.look fun w => w.host.balanceOf token owner)
      push (.integer balance)
  | .allowance    => do
      let token ← readParty
      let owner ← readParty
      let spender ← readParty
      let allowed ← onWork (Act.look fun w => w.host.allowance token owner spender)
      push (.integer allowed)
  | .mint         => do
      let token ← readParty
      let receiver ← readParty
      let amount ← readInteger
      onWork (Effect.request op (.mint token receiver amount))
  | .burn         => do
      let token ← readParty
      let holder ← readParty
      let amount ← readInteger
      onWork (Effect.request op (.burn token holder amount))
  | op            => misrouted op

/-- Reads so many fields of a struct, and stores each with its kind before it reads the next. -/
def defineFields (op : Opcode) : Nat → Act Fault (Machine σ) Unit
  | 0     => return ()
  | n + 1 => do
    let slot ← readSlot
    let kind ← readKind op
    let value ← readWord
    onWork (Effect.storeLocal slot value)
    onWork (Effect.storeLocal slot.kindTag (kindWord kind))
    defineFields op n

/-- Arrays and structs. -/
def collections (op : Opcode) : Act Fault (Machine σ) Unit :=
  match op with
  | .declare   => do
      let kind ← readVariant op
      let array ← readName op
      onWork (Effect.declare op kind array)
  | .append    => do
      let kind ← readKind op
      let value ← readWord
      let array ← readName op
      onWork (Effect.append op kind value array)
  | .element   => do
      let index ← readInteger
      let array ← readName op
      onWork (Effect.element op index array)
  | .sum       => do
      let array ← readName op
      onWork (Effect.sum op array)
  | .fieldSum  => do
      let array ← readName op
      let field ← readName op
      onWork (Effect.fieldSum op array field)
  | .length    => do
      let array ← readName op
      onWork (Effect.length op array)
  | .struct    => do
      let count ← readByte
      defineFields op count.toNat
  | .endStruct => return ()
  | op         => misrouted op

/-- Hands an opcode to the handler of a family. -/
def dispatch : Category → Opcode → Act Fault (Machine σ) Unit
  | .comparison  => comparison
  | .logical     => logical
  | .branching   => branching
  | .storage     => storage
  | .transfer    => transfer
  | .collections => collections
  | .environment => environment

/-- One instruction: its first byte, which the registry knows or does not, and then what the handler
of its family does. -/
def step : Act Fault (Machine σ) Unit := do
  let offset ← Act.look fun m => m.program.pc
  let c ← readByte
  match Registry.standard.byCode? c with
  | none   => Act.fail (.unknownOpcode c offset)
  | some e => dispatch e.category e.opcode

end Machine

end Proviso
