import Mathlib.Control.Monad.Basic
import Proviso.Proofs.Invariants

/-!
# Machines stay in their bounds

However a machine is used, its stack and what it is to return to stay within its limits, and every
position that it holds lies in its program or at the end. Loading a program is the only thing that
changes the program; account and limits never change. A machine may be used further after a failure,
so that what a failing step leaves counts as well: a branch that is refused may have noted where to
return to, and a read that breaks off has moved the position.

The stack is the part of the workspace that matters (`Workspace.InBounds`), and the rest is about
positions (`Program.InBounds`). Main statement: `Machine.used_stays_in_bounds`.
-/

namespace Proviso

variable {σ τ : Type}

/-! ### The stack -/

/-- The workspace is that of `account`, and its stack is under `limit` and keeps to it. -/
structure Workspace.InBounds (account : Address) (limit : Nat) (w : Workspace σ) : Prop where
  account_eq : w.account = account
  limit_eq : w.stack.limit = limit
  depth_le : w.stack.depth ≤ limit

/-- The act leaves a stack that keeps to its limit under that limit, also if it fails. -/
def Stack.KeepsLimit {α : Type} (x : Act Fault Stack α) : Prop :=
  ∀ s, s.depth ≤ s.limit → (x s).2.limit = s.limit ∧ (x s).2.depth ≤ s.limit

namespace Stack

theorem keepsLimit_push (c : Cell) : KeepsLimit (push c) := by
  intro s h
  rw [push]
  split
  · exact ⟨rfl, h⟩
  · next hroom => exact ⟨rfl, Nat.lt_of_not_le hroom⟩

theorem keepsLimit_pop (op : String) : KeepsLimit (pop op) := by
  rintro ⟨cells, limit⟩ h
  cases cells with
  | nil => exact ⟨rfl, h⟩
  | cons c r => exact ⟨rfl, Nat.le_of_succ_le h⟩

theorem keepsLimit_popPair (op : String) : KeepsLimit (popPair op) := by
  rintro ⟨cells, limit⟩ h
  rcases cells with _ | ⟨c, _ | ⟨d, r⟩⟩
  · exact ⟨rfl, h⟩
  · exact ⟨rfl, h⟩
  · exact ⟨rfl, Nat.le_of_succ_le (Nat.le_of_succ_le h)⟩

end Stack

namespace Workspace.InBounds

variable {account : Address} {limit : Nat}

/-- An act on the stack that keeps its limit keeps the bounds. -/
theorem onStack {α : Type} {x : Act Fault Stack α} (hx : Stack.KeepsLimit x) :
    Effect.Keeps (InBounds account limit) (Effect.onStack x : Effect σ α) := by
  intro w hw
  obtain ⟨rfl, rfl, hd⟩ := hw
  obtain ⟨hlimit, hdepth⟩ := hx w.stack hd
  exact ⟨rfl, hlimit, hdepth⟩

variable [Store σ]

/-- To keep the bounds goes through the primitives of effects. -/
theorem congruence :
    Effect.CongruenceOn (fun _ _ => True) (fun _ => True)
      fun {α} (x : Effect σ α) (_ : Effect σ α) => Effect.Keeps (InBounds account limit) x where
  pure _ := fun _ h => h
  fail _ := fun _ h => h
  bind := .bind
  push c := onStack (Stack.keepsLimit_push c)
  pop op := onStack (Stack.keepsLimit_pop op)
  popPair op := onStack (Stack.keepsLimit_popPair op)
  locals _ := fun _ h => h
  load _ := fun _ h => h
  host _ := fun _ h => h
  storeLocal _ _ := fun _ h => ⟨h.account_eq, h.limit_eq, h.depth_le⟩

omit [Store σ] in
/-- A request changes no storage and no stack. -/
theorem request (op : Opcode) (call : HostCall) :
    Effect.Keeps (InBounds account limit) (Effect.request op call : Effect σ Unit) := by
  intro w hw
  rw [Effect.request_apply]
  have hafter : InBounds account limit { w with
      host := (w.host.submit call).2,
      journal := ⟨op, call, (w.host.submit call).1⟩ :: w.journal } :=
    ⟨hw.account_eq, hw.limit_eq, hw.depth_le⟩
  split
  · exact onStack (Stack.keepsLimit_push _) _ hafter
  · exact hafter

/-- An instruction keeps the bounds of the workspace. -/
theorem perform (i : Instr Nat) :
    Effect.Keeps (InBounds account limit) (i.perform : Effect σ (Control Nat)) := by
  cases hi : i.demand? with
  | none =>
    exact (congruence.mono (fun _ _ _ => trivial) fun _ _ => trivial).perform hi
  | some call =>
    intro w hw
    rw [Instr.perform_snd_of_demand hi]
    exact request _ _ w hw

theorem storeFields (fs : List Field) :
    Effect.Keeps (InBounds account limit) (Effect.storeFields fs : Effect σ Unit) :=
  congruence.storeFields fun _ _ => ⟨trivial, trivial⟩

end Workspace.InBounds

/-! ### The position -/

/-- An instruction is read up to the end of the program at most, also where it breaks off. -/
theorem decodeAt_le (check : Reader.Check) {code : Array UInt8} {pc : Nat} (h : pc ≤ code.size) :
    (decodeAt check code pc).2 ≤ code.size := by
  rcases Nat.lt_or_eq_of_le h with hlt | rfl
  · exact (decodeAt_bounds check code hlt).2
  · exact Nat.le_of_eq (congrArg Prod.snd (decodeAt_of_end check (Nat.le_refl _)))

/-- The program is `code`, its position and all that is to return to lie in it or at its end, and
there is no more to return to than `limit` allows. -/
structure Program.InBounds (code : Array UInt8) (limit : Nat) (p : Program) : Prop where
  code_eq : p.code = code
  pc_le : p.pc ≤ code.size
  continuations_le : ∀ k ∈ p.continuations, k ≤ code.size
  depth_le : p.depth ≤ limit

namespace Program.InBounds

variable {code : Array UInt8} {limit : Nat} {p : Program}

theorem moveTo (h : p.InBounds code limit) {pc : Nat} (hpc : pc ≤ code.size) :
    (p.moveTo pc).InBounds code limit :=
  { h with pc_le := hpc }

/-- A jump that is refused leaves the program where it is. -/
theorem jump (h : p.InBounds code limit) (target : Nat) :
    (Program.jump target p).2.InBounds code limit := by
  rw [Program.jump]
  split
  · exact h
  · next hle =>
    refine h.moveTo ?_
    rw [← h.code_eq]
    exact Nat.le_of_not_lt hle

/-- A call notes a position in the code, if there is room, and goes to another. -/
theorem enter (h : p.InBounds code limit) (target : Nat) :
    (Program.enter limit target p).2.InBounds code limit := by
  rw [Program.enter_apply]
  split
  · exact h
  · next hroom =>
    -- the position behind the branch stays noted even if the jump is refused
    have hnoted : InBounds code limit { p with continuations := p.pc :: p.continuations } :=
      ⟨h.code_eq, h.pc_le, List.forall_mem_cons.mpr ⟨h.pc_le, h.continuations_le⟩,
        Nat.lt_of_not_le hroom⟩
    exact hnoted.jump target

/-- A return goes to a position that was in the code when it was noted. -/
theorem leave (h : p.InBounds code limit) : (Program.leave p).2.InBounds code limit := by
  obtain ⟨bytes, pc, conts⟩ := p
  cases conts with
  | nil =>
    refine h.moveTo ?_
    rw [← h.code_eq]
    exact Nat.le_refl _
  | cons k r =>
    have hrest : InBounds code limit ⟨bytes, pc, r⟩ :=
      ⟨h.code_eq, h.pc_le, fun j hj => h.continuations_le j (.tail _ hj),
        Nat.le_of_succ_le h.depth_le⟩
    exact hrest.jump k

/-- Whatever an instruction leads to, the position stays in the code. -/
theorem follow (h : p.InBounds code limit) (c : Control Nat) :
    (Machine.follow limit c p).2.InBounds code limit := by
  cases c with
  | next => exact h
  | enter target => exact h.enter target
  | leave => exact h.leave

end Program.InBounds

/-! ### Machines in use -/

namespace Machine

/-- The machine with another store and another host. -/
def lend (m : Machine σ) (store : τ) (host : Host) : Machine τ :=
  ⟨m.program, m.maxCalls, ⟨m.work.account, m.work.stack, store, host, m.work.journal⟩⟩

/-- A machine that was set up for `account` under `limits` and then used: programs were loaded, the
last of them `code`, and steps and whole runs were made, whether they succeeded or failed, on
whatever stores and hosts. -/
inductive Used (account : Address) (limits : Limits) :
    {σ : Type} → Machine σ → Array UInt8 → Prop where
  | fresh {σ : Type} (store : σ) (host : Host) :
      Used account limits (fresh account limits store host) #[]
  | load {σ : Type} {m : Machine σ} {before : Array UInt8} (h : Used account limits m before)
      (code : Array UInt8) : Used account limits (m.load code) code
  | lend {σ τ : Type} {m : Machine σ} {code : Array UInt8} (h : Used account limits m code)
      (store : τ) (host : Host) : Used account limits (m.lend store host) code
  | step {σ : Type} [Store σ] {m : Machine σ} {code : Array UInt8}
      (h : Used account limits m code) : Used account limits m.step.2 code
  | run {σ : Type} [Store σ] {m : Machine σ} {code : Array UInt8}
      (h : Used account limits m code) : Used account limits m.run.2 code

/-- The machine works for `account`, under `limits` that it keeps to, on the program `code`. -/
structure InBounds (account : Address) (limits : Limits) (code : Array UInt8) (m : Machine σ) :
    Prop where
  program : m.program.InBounds code limits.maxCalls
  maxCalls_eq : m.maxCalls = limits.maxCalls
  work : m.work.InBounds account limits.maxStack

namespace InBounds

variable {account : Address} {limits : Limits} {code : Array UInt8} {m : Machine σ}

theorem fresh (store : σ) (host : Host) :
    (fresh account limits store host).InBounds account limits #[] :=
  ⟨⟨rfl, Nat.le_refl _, by rintro _ ⟨⟩, Nat.zero_le _⟩, rfl, rfl, rfl, Nat.zero_le _⟩

/-- A new program starts within its bounds. -/
theorem load {before : Array UInt8} (h : m.InBounds account limits before) (code : Array UInt8) :
    (m.load code).InBounds account limits code :=
  ⟨⟨rfl, Nat.zero_le _, by rintro _ ⟨⟩, Nat.zero_le _⟩, h.maxCalls_eq, h.work.account_eq,
    h.work.limit_eq, Nat.zero_le _⟩

/-- A step keeps the bounds, whether it succeeds or fails. -/
theorem step [Store σ] (h : m.InBounds account limits code) :
    m.step.2.InBounds account limits code := by
  obtain rfl : m.program.code = code := h.program.code_eq
  have hread := decodeAt_le Reader.runnable h.program.pc_le
  rcases hd : decodeAt Reader.runnable m.program.code m.program.pc with ⟨e | i, pc⟩
  · rw [hd] at hread
    rw [Machine.step_of_decode_error hd]
    exact ⟨h.program.moveTo hread, h.maxCalls_eq, .storeFields e.fields m.work h.work⟩
  · rw [hd] at hread
    have hmoved := h.program.moveTo hread
    have hwork := Workspace.InBounds.perform i m.work h.work
    rcases hp : i.perform m.work with ⟨f | c, w⟩
    · rw [hp] at hwork
      rw [step_of_perform_error hd hp]
      exact ⟨hmoved, h.maxCalls_eq, hwork⟩
    · rw [hp] at hwork
      rw [step_of_perform_ok hd hp, h.maxCalls_eq]
      exact ⟨hmoved.follow c, rfl, hwork⟩

/-- A run keeps the bounds. -/
theorem run [Store σ] (h : m.InBounds account limits code) : m.run.2.InBounds account limits code :=
  run_keeps (P := InBounds account limits code) (fun _ h => h.step) h

end InBounds

variable {account : Address} {limits : Limits} {code : Array UInt8}

/-- A machine in use is within its bounds, by induction on how it was used. -/
theorem Used.inBounds {m : Machine σ} (h : m.Used account limits code) :
    m.InBounds account limits code := by
  induction h with
  | fresh store host => exact .fresh store host
  | load _ code ih => exact ih.load code
  | lend _ store host ih =>
    exact ⟨ih.program, ih.maxCalls_eq, ih.work.account_eq, ih.work.limit_eq, ih.work.depth_le⟩
  | step _ ih => exact ih.step
  | run _ ih => exact ih.run

/-- **Machines stay in their bounds.** However a machine is used, its stack holds no more cells and
it is to return to no more positions than its limits allow; its position and all that it is to
return to lie in the program or at its end; and it has the program that was loaded last, the account
and the limits that it was set up with. -/
theorem used_stays_in_bounds {m : Machine σ} (h : m.Used account limits code) :
    m.work.stack.depth ≤ limits.maxStack ∧ m.program.depth ≤ limits.maxCalls ∧
      m.program.pc ≤ m.program.length ∧ (∀ k ∈ m.program.continuations, k ≤ m.program.length) ∧
      m.program.code = code ∧ m.work.account = account ∧ m.limits = limits := by
  obtain ⟨⟨rfl, hpc, hconts, hdepth⟩, hcalls, haccount, hlimit, hcells⟩ := h.inBounds
  have hlimits : m.limits = limits := by rw [Machine.limits, hlimit, hcalls]
  exact ⟨hcells, hdepth, hpc, hconts, rfl, haccount, hlimits⟩

/-- A call whose jump is refused leaves the position behind it noted, and the only place for one is
taken: the same call on another store fails for want of room, and still all is in bounds. -/
theorem used_stays_in_bounds_of_refused_jump :
    let m := ((fresh .zero ⟨0, 1⟩ (.empty : Storage) .empty).load #[34, 0, 9, 34, 0, 0]).step.2
    let m' := (m.lend (Overlay.ofBase (.empty : Storage)) .empty).run
    m.program.continuations = [3] ∧ m'.1 = .error (.callDepthExceeded 1) ∧
      m'.2.program.pc = 6 ∧ m'.2.Used .zero ⟨0, 1⟩ #[34, 0, 9, 34, 0, 0] ∧
      m'.2.program.depth ≤ 1 ∧ m'.2.program.code = #[34, 0, 9, 34, 0, 0] := by
  intro m m'
  have hused : m'.2.Used .zero ⟨0, 1⟩ #[34, 0, 9, 34, 0, 0] :=
    .run (.lend (.step (.load (.fresh _ _) _)) _ _)
  obtain ⟨-, hdepth, -, -, hcode, -⟩ := used_stays_in_bounds hused
  exact ⟨by decide +kernel, by decide +kernel, by decide +kernel, hused, hdepth, hcode⟩

end Machine

end Proviso
