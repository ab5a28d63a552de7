import Proviso.Proofs.Requests

/-!
# Invariants of the workspace

Whatever its bytes are, a program touches its workspace in three ways only: it changes the operand
stack, it writes a local slot, and it makes the call of an instruction in the name of its account.
What all three keep (`Workspace.Stable`) every step keeps, also one that fails, and so does every
run.
-/

namespace Proviso

variable {σ : Type}

/-- The workspace after a call, with the host's answer noted. -/
def Workspace.afterCall (w : Workspace σ) (op : Opcode) (call : HostCall) : Workspace σ :=
  { w with
    host := (w.host.submit call).2,
    journal := ⟨op, call, (w.host.submit call).1⟩ :: w.journal }

variable [Store σ]

/-- A property of workspaces that nothing a program can do to them breaks. -/
structure Workspace.Stable (P : Workspace σ → Prop) : Prop where
  stack {w : Workspace σ} (s : Stack) (h : P w) : P { w with stack := s }
  store {w : Workspace σ} (k : Slot) (v : Word) (h : P w) :
    P { w with store := Store.put w.store w.account k v }
  call {w : Workspace σ} {i : Instr Nat} {call : Address → (Slot → Word) → HostCall}
    (hi : i.demand? = some call) (h : P w) :
    P (w.afterCall i.opcode (call w.account w.locals))

/-- The effect keeps a property, whether it succeeds or fails. -/
def Effect.Keeps (P : Workspace σ → Prop) {α : Type} (x : Effect σ α) : Prop :=
  ∀ w, P w → P (x w).2

omit [Store σ] in
/-- Two effects one after the other keep what each keeps. -/
theorem Effect.Keeps.bind {P : Workspace σ → Prop} {α β : Type} {x : Effect σ α}
    {f : α → Effect σ β} (hx : Keeps P x) (hf : ∀ a, Keeps P (f a)) : Keeps P (x >>= f) := by
  intro w hw
  have h := hx w hw
  rcases hxw : x w with ⟨e | a, w₁⟩
  · rw [hxw] at h
    rwa [Act.bind_of_error hxw]
  · rw [hxw] at h
    rw [Act.bind_of_ok hxw]
    exact hf a w₁ h

namespace Workspace.Stable

variable {P : Workspace σ → Prop}

/-- To keep a stable property goes through the primitives of effects. -/
theorem congruence (hP : Stable P) :
    Effect.Congruence fun {α} (x : Effect σ α) (_ : Effect σ α) => Effect.Keeps P x where
  pure _ := fun _ h => h
  fail _ := fun _ h => h
  bind := .bind
  onStack _ := fun _ h => hP.stack _ h
  locals _ := fun _ h => h
  load _ _ := fun _ h => h
  host _ := fun _ h => h
  storeLocal k v := fun _ h => hP.store k v h

/-- A request keeps it, granted or refused. -/
theorem request (hP : Stable P) {i : Instr Nat} {call : Address → (Slot → Word) → HostCall}
    (hi : i.demand? = some call) {w : Workspace σ} (h : P w) :
    P (Effect.request i.opcode (call w.account w.locals) w).2 := by
  have hcall := hP.call hi h
  rw [Effect.request_apply]
  split
  · exact hP.stack _ hcall
  · exact hcall

/-- So does any instruction. -/
theorem perform (hP : Stable P) (i : Instr Nat) : Effect.Keeps P (i.perform : Effect σ _) := by
  cases hi : i.demand? with
  | none => exact hP.congruence.perform hi
  | some call =>
    intro w hw
    rw [Instr.perform_snd_of_demand hi]
    exact hP.request hi hw

/-- So does a step, whether it fails or not. -/
theorem step (hP : Stable P) (m : Machine σ) (h : P m.work) : P m.step.2.work := by
  rcases hd : decodeAt Reader.runnable m.program.code m.program.pc with ⟨e | i, pc⟩
  · rw [Machine.step_of_decode_error hd]
    exact hP.congruence.storeFields e.fields m.work h
  · rw [Machine.step_work hd]
    exact hP.perform i m.work h

/-- A whole run keeps what a program cannot break. -/
theorem run (hP : Stable P) {m : Machine σ} (h : P m.work) : P m.run.2.work :=
  Machine.run_keeps (P := fun m => P m.work) hP.step h

end Workspace.Stable

end Proviso
