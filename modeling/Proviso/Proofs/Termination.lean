import Proviso.Proofs.Stepping

/-!
# Every run ends

Nothing counts steps, and a branch may lead backwards or into its own body. What ends every run is
the limit on nested bodies: each step that succeeds makes the machine lighter
(`Machine.weight_step_lt`), where one byte of a frame outweighs all that the bodies entered from it
can run. The weight looks at the position and at the pending continuations only, so it falls
whatever the store and the host answer, and whatever they become between two steps.
-/

namespace Proviso.Machine

variable {σ : Type}

/-- The machines agree on everything but what the instructions work on. -/
def SamePlace (m m' : Machine σ) : Prop :=
  m.program = m'.program ∧ m.maxCalls = m'.maxCalls

theorem SamePlace.weight_eq {m m' : Machine σ} (h : SamePlace m m') : m.weight = m'.weight := by
  rw [weight, weight, h.1, h.2]

variable [Store σ]

/-- A chain of steps uses up at least one unit of weight with every step. -/
theorem weight_add_le {ms : Nat → Machine σ}
    (h : ∀ n, ∃ m, (ms n).step = (.ok (), m) ∧ SamePlace m (ms (n + 1))) (n : Nat) :
    (ms n).weight + n ≤ (ms 0).weight := by
  induction n with
  | zero => exact Nat.le_refl _
  | succ n ih =>
    obtain ⟨m, hs, hp⟩ := h n
    have hlt : m.weight < (ms n).weight := weight_step_lt (pc_lt_length_of_step hs) hs
    rw [hp.weight_eq] at hlt
    omega

/-- A run follows the steps up to the end of the program or up to a step that fails. -/
theorem run_follows_steps (m : Machine σ) :
    ∃ m', Steps m m' ∧
      (m'.program.length ≤ m'.program.pc ∧ m.run = (.ok (), m') ∨
       ∃ f m'', m'.program.pc < m'.program.length ∧ m'.step = (.error f, m'') ∧
         m.run = (.error f, m'')) := by
  -- each step that succeeds lowers the weight
  induction hw : m.weight using Nat.strongRecOn generalizing m with
  | ind w ih =>
    by_cases hfin : m.program.length ≤ m.program.pc
    · exact ⟨m, .refl m, .inl ⟨hfin, run_of_finished hfin⟩⟩
    · have hlt : m.program.pc < m.program.length := Nat.lt_of_not_le hfin
      rcases hs : m.step with ⟨f | _, m₁⟩
      · exact ⟨m, .refl m, .inr ⟨f, m₁, hlt, hs, run_of_step_error hlt hs⟩⟩
      · have hl : m₁.weight < w := hw ▸ weight_step_lt hlt hs
        obtain ⟨m', ht, hend⟩ := ih _ hl m₁ rfl
        rw [← run_of_step_ok hs] at hend
        exact ⟨m', .more hs ht, hend⟩

/-- **Every run ends.** From no machine, whatever its bytes, position, continuations and limits,
do steps succeed for ever, not even if the store and the host change between them; and a run takes
steps until the program is at its end, or until a step fails, whose fault is the run's. -/
theorem steps_end_and_run_halts :
    (¬ ∃ ms : Nat → Machine σ, ∀ n, ∃ m, (ms n).step = (.ok (), m) ∧ SamePlace m (ms (n + 1))) ∧
    ∀ m : Machine σ, ∃ m', Steps m m' ∧
      (m'.program.length ≤ m'.program.pc ∧ m.run = (.ok (), m') ∨
       ∃ f m'', m'.program.pc < m'.program.length ∧ m'.step = (.error f, m'') ∧
         m.run = (.error f, m'')) := by
  refine ⟨?_, run_follows_steps⟩
  rintro ⟨ms, h⟩
  have hle := weight_add_le h ((ms 0).weight + 1)
  omega

end Proviso.Machine
