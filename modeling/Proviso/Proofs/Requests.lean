import Proviso.Evaluate
import Proviso.Proofs.Primitives
import Proviso.Proofs.Termination

/-!
# What a program does to its host

What a granted call makes of the host is said once, as a partial function of the call
(`Host.grant?`). Calls change the ledgers one after another and answer as they go; that they come to
the same, and that a refusal leaves every ledger as it was, is `Host.submit_eq`.

A step makes at most one request of the host. Without one, host and journal stay as they are; with
one, the host becomes what it makes of the call, and the journal gets the call with the host's
answer (`Machine.step_deals`).
-/

namespace Proviso

variable {σ : Type}

/-! ### Granted calls -/

namespace Ledger

variable {κ : Type} [Ranked κ]

/-- The ledger with an amount more for a holder, if the sum is in range. -/
def credit? (l : Ledger κ) (k : κ) (amount : UInt256) : Option (Ledger κ) :=
  (UInt256.add? (balance l k) amount).map fun v => l.insert k v

/-- The ledger with an amount less for a holder who has it. -/
def debit? (l : Ledger κ) (k : κ) (amount : UInt256) : Option (Ledger κ) :=
  (UInt256.sub? (balance l k) amount).map fun v => l.insert k v

/-- The ledger after a movement that the sender can make and the receiver can take; to oneself,
nothing moves. -/
def move? [DecidableEq κ] (l : Ledger κ) (sender receiver : κ) (amount : UInt256) :
    Option (Ledger κ) :=
  match UInt256.sub? (balance l sender) amount with
  | none         => none
  | some debited =>
    if sender = receiver then some l
    else (UInt256.add? (balance l receiver) amount).map fun credited =>
      (l.insert sender debited).insert receiver credited

/-- A movement is made as a whole, or leaves the ledger as it was. -/
theorem move_eq [DecidableEq κ] (l : Ledger κ) (sender receiver : κ) (amount : UInt256) :
    l.move sender receiver amount
      = ((l.move? sender receiver amount).isSome, (l.move? sender receiver amount).getD l) := by
  rw [move, move?]
  cases UInt256.sub? (balance l sender) amount with
  | none => rfl
  | some debited =>
    dsimp only
    split
    · rfl
    · cases UInt256.add? (balance l receiver) amount <;> rfl

end Ledger

namespace Host

/-- The host after a call, or nothing if it refuses. -/
def grant? (h : Host) : HostCall → Option Host
  | .sendNative sender receiver amount =>
      (h.native.move? sender receiver amount).map fun l => { h with native := l }
  | .tokenTransfer token sender receiver amount =>
      (h.tokens.move? (token, sender) (token, receiver) amount).map fun l =>
        { h with tokens := l }
  | .tokenTransferFrom token spender sender receiver amount =>
      (h.allowances.debit? (token, sender, spender) amount).bind fun rest =>
        (h.tokens.move? (token, sender) (token, receiver) amount).map fun l =>
          { h with tokens := l, allowances := rest }
  | .mint token receiver amount =>
      (h.tokens.credit? (token, receiver) amount).map fun l => { h with tokens := l }
  | .burn token holder amount =>
      (h.tokens.debit? (token, holder) amount).map fun l => { h with tokens := l }

variable {h h' : Host} {c : HostCall}

/-- **A call is granted as a whole, or changes nothing.** -/
theorem submit_eq (h : Host) (c : HostCall) :
    h.submit c = ((h.grant? c).isSome, (h.grant? c).getD h) := by
  cases c with
  | sendNative sender receiver amount =>
    rw [submit, sendNative, Ledger.move_eq, grant?]
    cases h.native.move? sender receiver amount <;> rfl
  | tokenTransfer token sender receiver amount =>
    rw [submit, tokenTransfer, Ledger.move_eq, grant?]
    cases h.tokens.move? (token, sender) (token, receiver) amount <;> rfl
  | tokenTransferFrom token spender sender receiver amount =>
    -- the allowance is looked at first, but it shrinks only when the tokens have moved
    rw [submit, tokenTransferFrom, tokenTransfer, Ledger.move_eq, grant?, Ledger.debit?]
    change (match UInt256.sub? (h.allowances.balance (token, sender, spender)) amount with
      | none           => (false, h)
      | some remaining => _) = _
    cases UInt256.sub? (h.allowances.balance (token, sender, spender)) amount with
    | none => rfl
    | some remaining =>
      cases h.tokens.move? (token, sender) (token, receiver) amount <;> rfl
  | mint token receiver amount =>
    rw [submit, mint, grant?, Ledger.credit?, balanceOf]
    cases UInt256.add? (h.tokens.balance (token, receiver)) amount <;> rfl
  | burn token holder amount =>
    rw [submit, burn, grant?, Ledger.debit?, balanceOf]
    cases UInt256.sub? (h.tokens.balance (token, holder)) amount <;> rfl

/-- A granted request is answered so, and its effect is kept. -/
theorem submit_of_grant (hg : h.grant? c = some h') : h.submit c = (true, h') := by
  rw [submit_eq, hg]
  rfl

/-- A refused request leaves the host. -/
theorem submit_of_refusal (hg : h.grant? c = none) : h.submit c = (false, h) := by
  rw [submit_eq, hg]
  rfl

/-- The host grants a call, or refuses it and stays as it is. -/
theorem submit_cases (h : Host) (c : HostCall) :
    (∃ h', h.grant? c = some h' ∧ h.submit c = (true, h')) ∨
    (h.grant? c = none ∧ h.submit c = (false, h)) := by
  cases hg : h.grant? c with
  | none => exact .inr ⟨rfl, submit_of_refusal hg⟩
  | some h' => exact .inl ⟨h', rfl, submit_of_grant hg⟩

/-- A refusal leaves the host as it was. -/
theorem submit_of_not_granted (h : Host) {c : HostCall} {h' : Host}
    (hs : h.submit c = (false, h')) : h' = h := by
  rcases h.submit_cases c with ⟨h₁, -, hs₁⟩ | ⟨-, hs₁⟩
  · rw [hs₁] at hs
    cases hs
  · rw [hs₁] at hs
    cases hs
    rfl

end Host

/-! ### Host and journal -/

/-- What a step may do to host and journal: nothing, or one call, which is noted with the host's
answer. -/
def Workspace.Deals (w w' : Workspace σ) : Prop :=
  (w'.host = w.host ∧ w'.journal = w.journal) ∨
  ∃ r : Request, w.host.submit r.call = (r.granted, w'.host) ∧ w'.journal = r :: w.journal

/-! ### Effects that leave the host alone -/

namespace Effect

/-- The effect makes no call and notes none. -/
def Quiet {α : Type} (x : Effect σ α) : Prop :=
  ∀ w, (x w).2.host = w.host ∧ (x w).2.journal = w.journal

theorem Quiet.bind {α β : Type} {x : Effect σ α} {f : α → Effect σ β} (hx : Quiet x)
    (hf : ∀ a, Quiet (f a)) : Quiet (x >>= f) := by
  intro w
  have h := hx w
  rcases hxw : x w with ⟨e | a, w₁⟩
  · rw [hxw] at h
    rwa [Act.bind_of_error hxw]
  · rw [hxw] at h
    rw [Act.bind_of_ok hxw]
    exact ⟨(hf a w₁).1.trans h.1, (hf a w₁).2.trans h.2⟩

theorem quiet_onStack {α : Type} (x : Act Fault Stack α) : Quiet (onStack x : Effect σ α) :=
  fun _ => ⟨rfl, rfl⟩

/-- To be quiet goes through the primitives of effects. -/
theorem congruence_quiet [Store σ] :
    Congruence fun {α} (x : Effect σ α) (_ : Effect σ α) => Quiet x where
  pure _ := fun _ => ⟨rfl, rfl⟩
  fail _ := fun _ => ⟨rfl, rfl⟩
  bind := .bind
  onStack := quiet_onStack
  locals _ := fun _ => ⟨rfl, rfl⟩
  load _ _ := fun _ => ⟨rfl, rfl⟩
  host _ := fun _ => ⟨rfl, rfl⟩
  storeLocal _ _ := fun _ => ⟨rfl, rfl⟩

/-! ### Requests -/

variable {op : Opcode} {call : HostCall} {w : Workspace σ}

/-- The host answers first; what the request then does to the stack depends on the answer. -/
theorem request_apply (op : Opcode) (call : HostCall) (w : Workspace σ) :
    request op call w
      = (if (w.host.submit call).1 then push (.flag true)
          else Act.fail (.externalCallFailed op.mnemonic) : Effect σ Unit)
        { w with
          host := (w.host.submit call).2,
          journal := ⟨op, call, (w.host.submit call).1⟩ :: w.journal } := rfl

/-- A refused request is a fault, and only the journal shows it. -/
theorem request_of_refusal (h : w.host.grant? call = none) :
    request op call w
      = (.error (.externalCallFailed op.mnemonic),
        { w with journal := ⟨op, call, false⟩ :: w.journal }) := by
  rw [request_apply, Host.submit_of_refusal h]
  rfl

/-- A granted request pushes a flag once the host has done its part. -/
theorem request_of_grant {host : Host} (h : w.host.grant? call = some host) :
    request op call w
      = push (.flag true) { w with host := host, journal := ⟨op, call, true⟩ :: w.journal } := by
  rw [request_apply, Host.submit_of_grant h]
  rfl

/-- Nothing is pushed on a full stack. -/
theorem push_of_full (h : w.stack.limit ≤ w.stack.depth) (c : Cell) :
    push c w = (.error (.stackOverflow w.stack.limit), w) := by
  rw [push, onStack, Act.within, Stack.push, if_pos h]

/-- A push fails on a full stack only, and then does nothing. -/
theorem push_eq_error {c : Cell} {f : Fault} {w' : Workspace σ}
    (h : push c w = (.error f, w')) :
    w.stack.limit ≤ w.stack.depth ∧ f = .stackOverflow w.stack.limit ∧ w' = w := by
  by_cases hfull : w.stack.limit ≤ w.stack.depth
  · rw [push_of_full hfull] at h
    cases h
    exact ⟨hfull, rfl, rfl⟩
  · rw [push, onStack, Act.within, Stack.push, if_neg hfull] at h
    cases h

/-- A request does to host and journal what it says. -/
theorem request_deals (op : Opcode) (call : HostCall) (w : Workspace σ) :
    w.Deals (request op call w).2 := by
  cases hg : w.host.grant? call with
  | none =>
    rw [request_of_refusal hg]
    exact .inr ⟨⟨op, call, false⟩, Host.submit_of_refusal hg, rfl⟩
  | some host =>
    rw [request_of_grant hg]
    exact .inr ⟨⟨op, call, true⟩, Host.submit_of_grant hg, rfl⟩

end Effect

variable [Store σ]

/-- An instruction makes at most one call. -/
theorem Instr.deals_perform {L : Type} (i : Instr L) (w : Workspace σ) :
    w.Deals (i.perform w).2 := by
  cases hd : i.demand? with
  | none => exact .inl (Effect.congruence_quiet.perform hd w)
  | some call =>
    rw [perform_snd_of_demand hd]
    exact Effect.request_deals i.opcode (call w.account w.locals) w

namespace Machine

/-- **One step, one call at most.** -/
theorem step_deals (m : Machine σ) : m.work.Deals m.step.2.work := by
  rcases hd : decodeAt Reader.runnable m.program.code m.program.pc with ⟨e | i, pc⟩
  · rw [step_of_decode_error hd]
    exact .inl (Effect.congruence_quiet.storeFields e.fields m.work)
  · rw [step_work hd]
    exact i.deals_perform m.work

/-- What a step keeps, whether it succeeds or fails, a whole run keeps. -/
theorem run_keeps {P : Machine σ → Prop} (hk : ∀ m, P m → P m.step.2) {m : Machine σ}
    (h : P m) : P m.run.2 := by
  obtain ⟨m', hsteps, hend⟩ := run_follows_steps m
  have h' : P m' := hsteps.keeps h fun m₁ m₂ h₁ hs => by
    have h₂ := hk m₁ h₁
    rwa [hs] at h₂
  rcases hend with ⟨-, hrun⟩ | ⟨f, m'', -, hs, hrun⟩
  · rwa [hrun]
  · have h'' := hk m' h'
    rw [hs] at h''
    rwa [hrun]

end Machine

end Proviso
