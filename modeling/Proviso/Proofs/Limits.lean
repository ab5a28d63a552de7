import Mathlib.Control.Monad.Basic
import Proviso.Proofs.Simulation

/-!
# Limits

A run feels the limits on its stack and on its branches only by failing for want of room. With more
room it goes the same way, and if it ended for another reason it ends the same way
(`runCode_mono_limits`). That holds of any bytes, whether they are a program or not.
-/

namespace Proviso

/-! ### Stacks with more room -/

/-- The faults of a run that is out of room: for another cell, or for another branch. -/
def Fault.IsShortage : Fault → Prop
  | .stackOverflow .. | .callDepthExceeded .. => True
  | .stackUnderflow .. | .typeMismatch .. | .arrayTypeMismatch .. | .invalidOperand ..
  | .overflow .. | .underflow .. | .divisionByZero .. | .endOfBytecode .. | .invalidJump ..
  | .indexOutOfBounds .. | .unknownOpcode .. | .invalidVariant .. | .undeclaredArray ..
  | .externalCallFailed .. => False

/-- The same cells, and at least as much room. -/
structure Stack.Roomier (s s' : Stack) : Prop where
  cells : s.cells = s'.cells
  limit : s.limit ≤ s'.limit

namespace Stack.Roomier

variable {s s' : Stack}

/-- The second stack is full only if the first is. -/
theorem push (h : s.Roomier s') (c : Cell) :
    Act.Matches Fault.IsShortage Roomier (Stack.push c s) (Stack.push c s') := by
  have hdepth : s.depth = s'.depth := congrArg List.length h.cells
  by_cases hfull : s.limit ≤ s.depth
  · exact .inl ⟨.stackOverflow s.limit, congrArg Prod.fst (if_pos hfull), trivial⟩
  · have hfull' : ¬ s'.limit ≤ s'.depth := fun h' =>
      hfull (hdepth ▸ Nat.le_trans h.limit h')
    rw [Stack.push, Stack.push, if_neg hfull, if_neg hfull']
    exact .inr ⟨rfl, congrArg (c :: ·) h.cells, h.limit⟩

/-- A cell that a stack has is there with more room. -/
theorem pop (h : s.Roomier s') (op : String) :
    Act.Matches Fault.IsShortage Roomier (Stack.pop op s) (Stack.pop op s') := by
  rw [Stack.pop, Stack.pop, h.cells]
  cases s'.cells with
  | nil => exact .inr ⟨rfl, h⟩
  | cons c r => exact .inr ⟨rfl, rfl, h.limit⟩

/-- So are two. -/
theorem popPair (h : s.Roomier s') (op : String) :
    Act.Matches Fault.IsShortage Roomier (Stack.popPair op s) (Stack.popPair op s') := by
  rw [Stack.popPair, Stack.popPair, h.cells]
  rcases s'.cells with _ | ⟨c, _ | ⟨d, r⟩⟩
  · exact .inr ⟨rfl, h⟩
  · exact .inr ⟨rfl, h⟩
  · exact .inr ⟨rfl, rfl, h.limit⟩

end Stack.Roomier

/-! ### Runs with more room -/

variable {σ : Type}

/-- The workspaces differ at most in that the second has more room on its stack. -/
structure Workspace.Roomier (w w' : Workspace σ) : Prop where
  account : w.account = w'.account
  stack : w.stack.Roomier w'.stack
  store : w.store = w'.store
  host : w.host = w'.host
  journal : w.journal = w'.journal

variable [Store σ]

/-- A workspace with more room does the same, unless the other one runs out of it. -/
theorem Workspace.simulation_roomier :
    Simulation (fun _ _ => True) Fault.IsShortage (@Roomier σ) where
  account h := h.account
  locals h := by rw [locals, locals, h.store, h.account]
  load h _ _ _ := by rw [h.store]
  host h := h.host
  push c := .onStack (fun h => h.stack) (fun h hs => { h with stack := hs }) fun h => h.push c
  pop op := .onStack (fun h => h.stack) (fun h hs => { h with stack := hs }) fun h => h.pop op
  popPair op :=
    .onStack (fun h => h.stack) (fun h hs => { h with stack := hs }) fun h => h.popPair op
  store k v h := by
    refine { h with store := ?_ }
    rw [h.store, h.account]
  call _ r h := { h with host := rfl, journal := congrArg (r :: ·) h.journal }

/-- **Limits are monotone.** A run that succeeds, or fails for another reason than want of room,
ends the same way under limits that are no lower: with the same result, the same cells, at the same
place with the same positions to return to, and with the same storage, host and journal. -/
theorem runCode_mono_limits (code : List UInt8) (account : Address) (l l' : Limits)
    (hstack : l.maxStack ≤ l'.maxStack) (hcalls : l.maxCalls ≤ l'.maxCalls) (store : σ)
    (host : Host)
    (hend : ∀ f, (runCode code account l store host).1 = .error f → ¬ f.IsShortage) :
    let ran := runCode code account l store host
    let ran' := runCode code account l' store host
    ran.1 = ran'.1 ∧ ran.2.work.stack.cells = ran'.2.work.stack.cells ∧
    ran.2.program = ran'.2.program ∧ ran.2.work.store = ran'.2.work.store ∧
    ran.2.work.host = ran'.2.work.host ∧ ran.2.work.journal = ran'.2.work.journal := by
  intro ran ran'
  have hbeside : ((Machine.fresh account l store host).load code.toArray).Beside Fault.IsShortage
      Workspace.Roomier ((Machine.fresh account l' store host).load code.toArray) :=
    ⟨rfl, .inr ⟨hcalls, trivial⟩, rfl, ⟨rfl, hstack⟩, rfl, rfl, rfl⟩
  rcases Workspace.simulation_roomier.run hbeside fun _ _ _ _ _ _ _ _ => trivial with
    ⟨f, hf, hshort⟩ | ⟨hr, hm⟩
  · exact absurd hshort (hend f hf)
  · exact ⟨hr, hm.work.stack.cells, hm.program, hm.work.store, hm.work.host, hm.work.journal⟩

/-- A branch into a body that pushes a flag runs in the room of one cell and one branch and not in
less, and so it runs under the usual limits. -/
theorem runCode_mono_limits_of_branch :
    let code := [49, 1, 32, 0, 6, 35, 49, 0, 35]
    let run (l : Limits) := runCode code .zero l (.empty : Storage) .empty
    (run ⟨0, 1⟩).1 = .error (.stackOverflow 0) ∧ (run ⟨1, 0⟩).1 = .error (.callDepthExceeded 0) ∧
    (run .default).1 = .ok () ∧ (run .default).2.work.stack.cells = [.flag false] ∧
    (run .default).2.program.pc = 9 ∧ (run .default).2.program.continuations = [] := by
  intro code run
  have hlow : (run ⟨1, 1⟩).1 = .ok () := by decide +kernel
  have hcells : (run ⟨1, 1⟩).2.work.stack.cells = [.flag false] := by decide +kernel
  have hplace : (run ⟨1, 1⟩).2.program.pc :: (run ⟨1, 1⟩).2.program.continuations = [9] := by
    decide +kernel
  obtain ⟨hr, hc, hp, -⟩ := runCode_mono_limits code .zero ⟨1, 1⟩ .default (by decide)
    (by decide) (.empty : Storage) .empty fun f hf => by cases hlow.symm.trans hf
  obtain ⟨hpc, hconts⟩ := List.cons.inj (hp ▸ hplace)
  exact ⟨by decide +kernel, by decide +kernel, hr.symm.trans hlow, hc.symm.trans hcells, hpc,
    hconts⟩

end Proviso
