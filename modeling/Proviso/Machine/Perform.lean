import Proviso.Machine.Collection
import Proviso.Machine.Operator

/-!
# What each instruction does

An instruction works on its workspace and then says where the program goes on: with the next
instruction, with a body, or behind the branch that entered this one.
-/

namespace Proviso

/-- Where the program goes on. -/
inductive Control (L : Type) where
  | next
  | enter (target : L)
  | leave

namespace Effect

variable {σ : Type}

/-- Applies an operator to the two topmost cells. -/
def binary (op : String) (f : Cell → Cell → Except Fault Cell) : Effect σ Unit := do
  let (lhs, rhs) ← onStack (Stack.popPair op)
  pushResult (f lhs rhs)

/-- What the host says about block and message. -/
def reading (r : Reading) : Effect σ Cell :=
  Act.look fun w =>
    match r with
    | .blockNumber    => .integer (.ofUInt64 w.host.blockNumber)
    | .blockTimestamp => .integer (.ofUInt64 w.host.blockTimestamp)
    | .chainId        => .integer (.ofUInt64 w.host.chainId)
    | .sender         => .account w.host.sender
    | .value          => .integer w.host.value

/-- The topmost cell as the word that a variable of this type stores. -/
def popScalar (op : String) (s : Scalar) : Effect σ Word :=
  match s with
  | .integer => do return .ofUInt256 (← onStack (Stack.popInteger op))
  | .flag    => do return .ofBool (← onStack (Stack.popFlag op))
  | .account => do return .ofAddress (← onStack (Stack.popAccount op))
  | .word    => onStack (Stack.popWord op)

end Effect

/-- The account that calls act for. -/
def Effect.self {σ : Type} : Effect σ Address :=
  Act.look Workspace.account

open Effect in
/-- Carries out an instruction. -/
def Instr.perform {σ L : Type} [Store σ] : Instr L → Effect σ (Control L)
  | ⟨.compare c, ()⟩ => do
      binary c.mnemonic c.apply
      return .next
  | ⟨.not, ()⟩ => do
      pushResult (negate (← onStack (Stack.pop Opcode.not.mnemonic)))
      return .next
  | ⟨.connect c, ()⟩ => do
      binary c.mnemonic c.apply
      return .next
  | ⟨.compute a, ()⟩ => do
      binary a.mnemonic a.apply
      return .next
  | ⟨.ifThen, (target, ())⟩ => do
      if ← onStack (Stack.popFlag Opcode.ifThen.mnemonic) then return .enter target
      else return .next
  | ⟨.ifElse, (good, bad, ())⟩ => do
      if ← onStack (Stack.popFlag Opcode.ifElse.mnemonic) then return .enter good
      else return .enter bad
  | ⟨.call, (body, ())⟩ => return .enter body
  | ⟨.close, ()⟩ => return .leave
  | ⟨.loadLocal, (kind, slot, ())⟩ => do
      pushResult (typedCell .loadLocal kind (← loadLocal slot))
      return .next
  | ⟨.loadRemote, (kind, slot, account, ())⟩ => do
      pushResult (typedCell .loadRemote kind (← load account slot))
      return .next
  | ⟨.set s, (slot, ())⟩ => do
      storeLocal slot (← popScalar (Opcode.set s).mnemonic s)
      return .next
  | ⟨.sendNative, (receiver, amount, ())⟩ => do
      request .sendNative (.sendNative (← self) (← party receiver) amount)
      return .next
  | ⟨.transfer, (token, receiver, amount, ())⟩ => do
      request .transfer (.tokenTransfer (← party token) (← self) (← party receiver) amount)
      return .next
  | ⟨.transferVar, (token, receiver, amount, ())⟩ => do
      let amount := (← loadLocal amount).toUInt256
      request .transferVar (.tokenTransfer (← party token) (← self) (← party receiver) amount)
      return .next
  | ⟨.transferFrom, (token, sender, receiver, amount, ())⟩ => do
      request .transferFrom
        (.tokenTransferFrom (← party token) (← self) (← party sender) (← party receiver) amount)
      return .next
  | ⟨.balanceOf, (token, owner, ())⟩ => do
      let token ← party token
      let owner ← party owner
      push (.integer (← Act.look fun w => w.host.balanceOf token owner))
      return .next
  | ⟨.allowance, (token, owner, spender, ())⟩ => do
      let token ← party token
      let owner ← party owner
      let spender ← party spender
      push (.integer (← Act.look fun w => w.host.allowance token owner spender))
      return .next
  | ⟨.mint, (token, receiver, amount, ())⟩ => do
      request .mint (.mint (← party token) (← party receiver) amount)
      return .next
  | ⟨.burn, (token, holder, amount, ())⟩ => do
      request .burn (.burn (← party token) (← party holder) amount)
      return .next
  | ⟨.declare, (kind, array, ())⟩ => do
      declare .declare kind (← name .declare array)
      return .next
  | ⟨.append, ((kind, value), array, ())⟩ => do
      append .append kind value (← name .append array)
      return .next
  | ⟨.element, (index, array, ())⟩ => do
      element .element index (← name .element array)
      return .next
  | ⟨.sum, (array, ())⟩ => do
      sum .sum (← name .sum array)
      return .next
  | ⟨.fieldSum, (array, field, ())⟩ => do
      let array ← name .fieldSum array
      fieldSum .fieldSum array (← name .fieldSum field)
      return .next
  | ⟨.length, (array, ())⟩ => do
      length .length (← name .length array)
      return .next
  | ⟨.struct, (fields, ())⟩ => do
      storeFields fields
      return .next
  | ⟨.endStruct, ()⟩ => return .next
  | ⟨.literal .integer, (v, ())⟩ => do
      push (.integer v)
      return .next
  | ⟨.literal .flag, (b, ())⟩ => do
      push (.flag b)
      return .next
  | ⟨.literal .account, (a, ())⟩ => do
      push (.account a)
      return .next
  | ⟨.literal .word, (w, ())⟩ => do
      push (.word w)
      return .next
  | ⟨.read r, ()⟩ => do
      push (← reading r)
      return .next

end Proviso
