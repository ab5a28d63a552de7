import Proviso.Table
import Proviso.Word

/-!
# The host

What a program sees of the chain it runs on: its block, the message that called it, and the
ledgers of native currency, tokens and allowances. Funds move only by calls, which the host grants
or refuses: each call gives the answer and the host as it is afterwards.
-/

namespace Proviso

/-- Balances by holder; who is not listed holds zero. -/
abbrev Ledger (κ : Type) [Ranked κ] := Table κ UInt256

namespace Ledger

variable {κ : Type} [Ranked κ] [DecidableEq κ]

/-- What a holder has. -/
def balance (l : Ledger κ) (k : κ) : UInt256 :=
  (l.get? k).getD .zero

/-- Debits the sender and credits the receiver, once it is sure that the one holds the amount and
the other can take it; to oneself, nothing moves. -/
def move (l : Ledger κ) (sender receiver : κ) (amount : UInt256) : Bool × Ledger κ :=
  match UInt256.sub? (balance l sender) amount with
  | none         => (false, l)
  | some debited =>
    if sender = receiver then (true, l)
    else
      match UInt256.add? (balance l receiver) amount with
      | none          => (false, l)
      | some credited =>
        let l := l.insert sender debited
        let l := l.insert receiver credited
        (true, l)

end Ledger

/-- A request to move funds. -/
inductive HostCall where
  | sendNative (sender receiver : Address) (amount : UInt256)
  | tokenTransfer (token sender receiver : Address) (amount : UInt256)
  | tokenTransferFrom (token spender sender receiver : Address) (amount : UInt256)
  | mint (token receiver : Address) (amount : UInt256)
  | burn (token holder : Address) (amount : UInt256)
  deriving DecidableEq

/-- Block, message and ledgers. -/
structure Host where
  blockNumber : UInt64
  blockTimestamp : UInt64
  chainId : UInt64
  sender : Address
  value : UInt256
  /-- Native balances by owner. -/
  native : Ledger Address
  /-- Token balances by token and owner. -/
  tokens : Ledger (Address × Address)
  /-- Allowances by token, owner and spender. -/
  allowances : Ledger (Address × Address × Address)

namespace Host

/-- A host at block zero, with empty ledgers. -/
def empty : Host where
  blockNumber := 0
  blockTimestamp := 0
  chainId := 0
  sender := .zero
  value := .zero
  native := .empty
  tokens := .empty
  allowances := .empty

/-- What an account has of the native currency. -/
def nativeBalance (h : Host) (owner : Address) : UInt256 :=
  h.native.balance owner

/-- What an account has of a token. -/
def balanceOf (h : Host) (token owner : Address) : UInt256 :=
  h.tokens.balance (token, owner)

/-- What a spender may still move of an owner's tokens. -/
def allowance (h : Host) (token owner spender : Address) : UInt256 :=
  h.allowances.balance (token, owner, spender)

/-- The host with another native balance. -/
def setNative (h : Host) (owner : Address) (amount : UInt256) : Host :=
  { h with native := h.native.insert owner amount }

/-- The host with another token balance. -/
def setToken (h : Host) (token owner : Address) (amount : UInt256) : Host :=
  { h with tokens := h.tokens.insert (token, owner) amount }

/-- The host with another allowance. -/
def approve (h : Host) (token owner spender : Address) (amount : UInt256) : Host :=
  { h with allowances := h.allowances.insert (token, owner, spender) amount }

/-! ### Calls -/

/-- Moves native currency. -/
def sendNative (h : Host) (sender receiver : Address) (amount : UInt256) : Bool × Host :=
  let (moved, native) := h.native.move sender receiver amount
  (moved, { h with native := native })

/-- Moves tokens. -/
def tokenTransfer (h : Host) (token sender receiver : Address) (amount : UInt256) :
    Bool × Host :=
  let (moved, tokens) := h.tokens.move (token, sender) (token, receiver) amount
  (moved, { h with tokens := tokens })

/-- Moves tokens that their owner has allowed the spender to move. The tokens go first, then the
allowance shrinks. -/
def tokenTransferFrom (h : Host) (token spender sender receiver : Address) (amount : UInt256) :
    Bool × Host :=
  match UInt256.sub? (h.allowance token sender spender) amount with
  | none           => (false, h)
  | some remaining =>
    match h.tokenTransfer token sender receiver amount with
    | (false, h') => (false, h')
    | (true, h')  => (true, h'.approve token sender spender remaining)

/-- Creates tokens. -/
def mint (h : Host) (token receiver : Address) (amount : UInt256) : Bool × Host :=
  match UInt256.add? (h.balanceOf token receiver) amount with
  | none       => (false, h)
  | some total => (true, h.setToken token receiver total)

/-- Destroys tokens. -/
def burn (h : Host) (token holder : Address) (amount : UInt256) : Bool × Host :=
  match UInt256.sub? (h.balanceOf token holder) amount with
  | none      => (false, h)
  | some rest => (true, h.setToken token holder rest)

/-- Whether the host grants a call, and the host afterwards. -/
def submit (h : Host) : HostCall → Bool × Host
  | .sendNative sender receiver amount => h.sendNative sender receiver amount
  | .tokenTransfer token sender receiver amount => h.tokenTransfer token sender receiver amount
  | .tokenTransferFrom token spender sender receiver amount =>
      h.tokenTransferFrom token spender sender receiver amount
  | .mint token receiver amount => h.mint token receiver amount
  | .burn token holder amount => h.burn token holder amount

end Host

end Proviso
