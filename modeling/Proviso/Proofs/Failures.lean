import Proviso.Proofs.Atoms
import Proviso.Proofs.Requests

/-!
# Funds and failing steps

A step that fails leaves the host as it was, with one exception. A call that the host has granted
is answered on the stack, and if the stack is full there is no room for the answer: the step fails
with the funds already moved. `Machine.host_of_step_error` says that nothing else can happen, and
`Machine.send_moves_funds_and_overflows` that this does, in an assembled program.
-/

namespace Proviso

variable {σ L : Type} [Store σ] {w w' : Workspace σ} {f : Fault}

namespace Instr

variable {i : Instr L} {call : Address → (Slot → Word) → HostCall}

/-- An instruction with a call fails as the request for it fails, and otherwise the next one
follows. -/
theorem perform_cases_of_demand (hd : i.demand? = some call) (w : Workspace σ) :
    (∃ f w', Effect.request i.opcode (call w.account w.locals) w = (.error f, w') ∧
      i.perform w = (.error f, w')) ∨
    ∃ w', i.perform w = (.ok .next, w') := by
  rw [perform_of_demand hd]
  rcases hr : Effect.request i.opcode (call w.account w.locals) w with ⟨f | u, w'⟩
  · exact .inl ⟨f, w', rfl, Act.bind_of_error hr _⟩
  · exact .inr ⟨w', Act.bind_of_ok hr _⟩

/-- A granted call on a full stack: the host has done its part, and the instruction fails. -/
theorem perform_of_full {host : Host} (hd : i.demand? = some call)
    (hg : w.host.grant? (call w.account w.locals) = some host)
    (hfull : w.stack.limit ≤ w.stack.depth) :
    i.perform w = (.error (.stackOverflow w.stack.limit),
      { w with
        host := host,
        journal := ⟨i.opcode, call w.account w.locals, true⟩ :: w.journal }) := by
  have hr : Effect.request i.opcode (call w.account w.locals) w
      = (.error (.stackOverflow w.stack.limit),
        { w with
          host := host,
          journal := ⟨i.opcode, call w.account w.locals, true⟩ :: w.journal }) := by
    rw [Effect.request_of_grant hg, Effect.push_of_full]
    exact hfull
  rw [perform_of_demand hd, Act.bind_of_error hr]

/-- An instruction that fails leaves the host, or else its request was granted and there was no room
for the flag that says so. -/
theorem host_of_perform_error (hp : i.perform w = (.error f, w')) :
    w'.host = w.host ∨
    (w.stack.limit ≤ w.stack.depth ∧ f = .stackOverflow w.stack.limit ∧
      ∃ call, i.demand? = some call ∧
        w.host.grant? (call w.account w.locals) = some w'.host) := by
  cases hd : i.demand? with
  | none =>
    have hq := Effect.congruence_quiet.perform hd w
    rw [hp] at hq
    exact .inl hq.1
  | some call =>
    rcases perform_cases_of_demand hd w with ⟨f₁, w₁, hr, hp₁⟩ | ⟨w₁, hp₁⟩
    · obtain ⟨hf, rfl⟩ := Prod.mk.inj (hp.symm.trans hp₁)
      cases hf
      cases hg : w.host.grant? (call w.account w.locals) with
      | none =>
        rw [Effect.request_of_refusal hg] at hr
        cases hr
        exact .inl rfl
      | some host =>
        rw [Effect.request_of_grant hg] at hr
        obtain ⟨hfull, hf, rfl⟩ := Effect.push_eq_error hr
        exact .inr ⟨hfull, hf, call, rfl, hg⟩
    · rw [hp₁] at hp
      cases hp

end Instr

namespace Machine

variable {m m' : Machine σ}

/-- **What a failing step leaves of the host.** All of it, unless the step is at an instruction
whose call the host has granted while the stack had no room for the answer. -/
theorem host_of_step_error (hs : m.step = (.error f, m')) :
    m'.work.host = m.work.host ∨
    (m.work.stack.limit ≤ m.work.stack.depth ∧ f = .stackOverflow m.work.stack.limit ∧
      ∃ i pc call, decodeAt Reader.runnable m.program.code m.program.pc = (.ok i, pc) ∧
        i.demand? = some call ∧
        m.work.host.grant? (call m.work.account m.work.locals) = some m'.work.host) := by
  rcases hd : decodeAt Reader.runnable m.program.code m.program.pc with ⟨e | i, pc⟩
  · have hq := Effect.congruence_quiet.storeFields e.fields m.work
    rw [step_of_decode_error hd] at hs
    cases hs
    exact .inl hq.1
  · rcases hp : i.perform m.work with ⟨f₁ | c, w⟩
    · rw [step_of_perform_error hd hp] at hs
      cases hs
      rcases Instr.host_of_perform_error hp with hh | ⟨hfull, hf, call, hi, hg⟩
      · exact .inl hh
      · exact .inr ⟨hfull, hf, i, pc, call, rfl, hi, hg⟩
    · rw [step_of_perform_ok hd hp] at hs
      cases hi : i.demand? with
      | none =>
        have hq := Effect.congruence_quiet.perform hi m.work
        rw [hp] at hq
        obtain ⟨-, rfl⟩ := Prod.mk.inj hs
        exact .inl hq.1
      | some call =>
        -- behind a call that was answered the next instruction follows, which cannot fail
        rcases Instr.perform_cases_of_demand hi m.work with ⟨f₁, w₁, -, hp₁⟩ | ⟨w₁, hp₁⟩
        · rw [hp₁] at hp
          cases hp
        · rw [hp₁] at hp
          cases hp
          cases hs

/-- A send of three to the account in slot zero, on a stack that takes nothing: the exception. -/
theorem host_of_step_error_of_full :
    let alice : Address := .ofNat 1
    let host := Host.empty.setNative alice ⟨10, by decide⟩
    let code := Opcode.sendNative.code :: List.replicate 35 0 ++ [3]
    let m := (fresh alice ⟨0, 0⟩ (Table.empty : Storage) host).load code.toArray
    m.step.1 = .error (.stackOverflow 0) ∧
    m.step.2.work.host.nativeBalance alice = ⟨7, by decide⟩ ∧
    (m.step.2.work.host = m.work.host ∨
    (m.work.stack.limit ≤ m.work.stack.depth ∧
      Fault.stackOverflow 0 = .stackOverflow m.work.stack.limit ∧
      ∃ i pc call, decodeAt Reader.runnable m.program.code m.program.pc = (.ok i, pc) ∧
        i.demand? = some call ∧
        m.work.host.grant? (call m.work.account m.work.locals) = some m.step.2.work.host)) := by
  intro alice host code m
  have hs : m.step.1 = .error (.stackOverflow 0) := by decide +kernel
  have hb : m.step.2.work.host.nativeBalance alice = ⟨7, by decide⟩ := by decide +kernel
  -- from here on what the machine is does not matter
  clear_value m
  exact ⟨hs, hb, host_of_step_error (Prod.ext hs rfl)⟩

/-! ### Funds that a failing step moves -/

/-- Pushes a flag, then sends an amount to the account in a slot. -/
def flagThenSend (slot : Slot) (amount : UInt256) : List (Instr Token) :=
  [⟨.literal .flag, (true, ())⟩, ⟨.sendNative, (slot, amount, ())⟩]

/-- Where the flag fills the stack, a send that the host grants moves the funds and fails. -/
theorem step_error_of_flagThenSend {slot : Slot} {amount : UInt256} {code : List UInt8}
    (hl : Assembly.Linked ⟨flagThenSend slot amount, []⟩ code) {account : Address} {store : σ}
    {host host' : Host} (calls : Nat)
    (hg : host.grant? (.sendNative account (Store.load store account slot).toAddress amount)
      = some host') :
    ∃ m m' : Machine σ, ((fresh account ⟨1, calls⟩ store host).load code.toArray).Steps m ∧
      m.step = (.error (.stackOverflow 1), m') ∧ m.work.host = host ∧ m'.work.host = host' := by
  have hat := Assembly.at_main ⟨flagThenSend slot amount, []⟩
  let m : Machine σ :=
    ⟨⟨code.toArray, 2, []⟩, calls, ⟨account, ⟨[.flag true], 1⟩, store, host, []⟩⟩
  have hflag : ((fresh account ⟨1, calls⟩ store host).load code.toArray).step = (.ok (), m) :=
    step_of_perform_next (i := ⟨.literal .flag, (true, ())⟩) hl rfl hat rfl
  have hfull : m.work.stack.limit ≤ m.work.stack.depth := Nat.le_refl 1
  obtain ⟨m', hs, hw⟩ := step_of_perform_fault (m := m) hl rfl hat.tail
    (Instr.perform_of_full rfl hg hfull)
  exact ⟨m, m', .more hflag (.refl m), hs, rfl, by rw [hw]⟩

open TokenReader in
theorem reads_flagThenSend :
    Reads .standard ["bool", "true", "sendEth", "BOB", "3"]
      (flagThenSend (Slot.ofName "BOB") ⟨3, by decide⟩) := by
  have hflag : Reads .standard ["bool", "true"] [⟨.literal .flag, (true, ())⟩] :=
    Reads.of_operands (.literal .flag)
      (fun r => operands_cons (reading_of_some (by decide) r) rfl) (by rintro ⟨⟩)
  have hsend : Reads .standard ["sendEth", "BOB", "3"]
      [⟨.sendNative, (Slot.ofName "BOB", ⟨3, by decide⟩, ())⟩] :=
    Reads.of_operands .sendNative
      (fun r => operands_cons rfl (operands_cons (reading_of_some (by decide) r) rfl))
      (by rintro ⟨⟩)
  exact hflag.append hsend

/-- **A failing step that moves funds.** With room for one cell, a send behind a flag is granted
and fails: the account had ten before the step and has seven after it. -/
theorem send_moves_funds_and_overflows :
    let alice : Address := .ofNat 1
    let host := Host.empty.setNative alice ⟨10, by decide⟩
    ∃ (code : List UInt8) (m m' : Machine Storage),
      assemble ["bool", "true", "sendEth", "BOB", "3"] = .ok code ∧
      ((fresh alice ⟨1, 0⟩ Table.empty host).load code.toArray).Steps m ∧
      m.step = (.error (.stackOverflow 1), m') ∧
      m.work.host.nativeBalance alice = ⟨10, by decide⟩ ∧
      m'.work.host.nativeBalance alice = ⟨7, by decide⟩ := by
  intro alice host
  have hstraight : ∀ i ∈ flagThenSend (Slot.ofName "BOB") ⟨3, by decide⟩, i.IsStraight := by
    rintro i (_ | ⟨_, _ | ⟨_, ⟨⟩⟩⟩) <;> exact ⟨rfl, by rintro ⟨⟩⟩
  have hsize : Assembly.sizeSum (flagThenSend (Slot.ofName "BOB") ⟨3, by decide⟩)
      ≤ Assembly.maxSize := by decide
  have hl := Assembly.linked_of_tokens reads_flagThenSend.ofTokens
    (Assembly.link_straight hstraight hsize)
  -- the variable was never written, so the receiver is the zero address
  obtain ⟨host', hg, hb⟩ : ∃ host', host.grant? (.sendNative alice
      (Store.load (Table.empty : Storage) alice (Slot.ofName "BOB")).toAddress ⟨3, by decide⟩)
        = some host' ∧ host'.nativeBalance alice = ⟨7, by decide⟩ :=
    ⟨_, rfl, by decide +kernel⟩
  obtain ⟨m, m', hsteps, hs, hm, hm'⟩ := step_error_of_flagThenSend hl 0 hg
  exact ⟨_, m, m', assemble_straight reads_flagThenSend hstraight hsize, hsteps, hs,
    by rw [hm]; decide +kernel, by rw [hm', hb]⟩

end Machine

end Proviso
