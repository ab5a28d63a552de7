import Proviso.Machine.Decoded

/-!
# Runs of the machine

A run takes steps until the program is at its end or a step fails. Nothing is undone after a
failure.

Main statement: a step that succeeds makes the machine lighter (`Machine.weight_step_lt`), so that
every run ends.
-/

namespace Proviso

namespace Machine

variable {σ : Type}

/-- What is left to run. -/
def weight (m : Machine σ) : Nat :=
  m.program.weight m.maxCalls

/-- Going on from behind an instruction leaves less to run. -/
theorem weight_follow_lt {m : Machine σ} {c : Control Nat} {pc : Nat} {p : Program}
    (h : m.program.pc < m.program.length) (hpc : m.program.pc < pc)
    (hf : follow m.maxCalls c (m.program.moveTo pc) = (.ok (), p)) :
    p.weight m.maxCalls < m.weight := by
  cases c with
  | next =>
    have hp : p = m.program.moveTo pc := by cases hf; rfl
    exact hp ▸ Program.weight_moveTo_lt _ _ h hpc
  | enter target => exact Program.weight_enter_lt h hpc hf
  | leave => exact Program.weight_leave_lt h hf

variable [Store σ]

/-- A step that succeeds makes the machine lighter. -/
theorem weight_step_lt {m m' : Machine σ} (h : m.program.pc < m.program.length)
    (hs : m.step = (.ok (), m')) : m'.weight < m.weight := by
  have hb := decodeAt_bounds Reader.runnable m.program.code h
  rcases hd : decodeAt Reader.runnable m.program.code m.program.pc with ⟨e | i, pc⟩
  · rw [step_of_decode_error hd] at hs
    cases hs
  · rw [hd] at hb
    rcases hp : i.perform m.work with ⟨f | c, w⟩
    · rw [step_of_perform_error hd hp] at hs
      cases hs
    · rw [step_of_perform_ok hd hp] at hs
      obtain ⟨hr, rfl⟩ := Prod.mk.inj hs
      exact weight_follow_lt h hb.1 (Prod.ext hr rfl)

/-- Steps until the program is at its end or a step fails. -/
def run (m : Machine σ) : Except Fault Unit × Machine σ :=
  if _h : m.program.length ≤ m.program.pc then (.ok (), m)
  else
    match _hs : m.step with
    | (.error f, m') => (.error f, m')
    | (.ok (), m')   => m'.run
termination_by m.weight
decreasing_by exact weight_step_lt (Nat.lt_of_not_le _h) _hs

/-- The machines after each of at most `n` steps, and the fault of the last one if it failed. -/
def trace : (n : Nat) → Machine σ → List (Machine σ) × Option Fault
  | 0,     _ => ([], none)
  | n + 1, m =>
    if m.program.finished then ([], none)
    else
      match m.step with
      | (.error f, m') => ([m'], some f)
      | (.ok (), m')   =>
        let (rest, f) := trace n m'
        (m' :: rest, f)

end Machine

end Proviso
