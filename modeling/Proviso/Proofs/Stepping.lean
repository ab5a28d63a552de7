import Proviso.Machine.Run
import Proviso.Proofs.Layout

/-!
# Steps of the machine

A run is a chain of steps that succeed, up to the end of the program or to a step that fails. In a
linked program a step at the place of an instruction carries that instruction out and goes on
where it leads, its target resolved to an offset.

Main statement: `Machine.step_at`. Arguments about linked programs that need more than it says of
the bytes take it from `Assembly.Linked.decodeAt_cases`.
-/

namespace Proviso

/-! ### What is read where -/

/-- Behind the last byte there is nothing to read. -/
theorem decodeAt_of_end (check : Reader.Check) {code : Array UInt8} {pc : Nat}
    (h : code.size ≤ pc) :
    decodeAt check code pc = (.error ⟨.endOfBytecode pc 1 (code.size - pc), []⟩, pc) := by
  have hb : Reader.byte code pc = (.error ⟨.endOfBytecode pc 1 (code.size - pc), []⟩, pc) :=
    dif_neg (Nat.not_lt.mpr h)
  rw [decodeAt, Act.bind_of_error hb]

/-- At the place of an instruction of a linked program that instruction is read, or one of its
operands is refused; no struct breaks off. -/
theorem Assembly.Linked.decodeAt_cases {a : Assembly} {code : List UInt8} (hl : a.Linked code)
    {pc : Nat} {i : Instr Token} {is : List (Instr Token)} (hat : a.At pc (i :: is)) :
    (∃ f pc', (i.mapLabels a.offsetOf).defect? Reader.runnable = some f ∧
      decodeAt Reader.runnable code.toArray pc = (.error ⟨f, []⟩, pc')) ∨
    decodeAt Reader.runnable code.toArray pc = (.ok (i.mapLabels a.offsetOf), pc + i.size) := by
  have hs : Stands code.toArray pc (i.mapLabels a.offsetOf).encode := by
    rw [hl.code_eq]
    exact hat.stands
  have hsound := hl.sound_mapLabels hat.mem
  cases hd : (i.mapLabels a.offsetOf).defect? Reader.runnable with
  | some f =>
    obtain ⟨pc', hdec⟩ := decodeAt_of_defect hsound hd hs
    exact .inl ⟨f, pc', rfl, hdec⟩
  | none =>
    have hdec := decodeAt_encode hsound hd hs
    rw [Instr.size_mapLabels] at hdec
    exact .inr hdec

namespace Machine

variable {σ : Type} [Store σ]

/-! ### Chains of steps -/

/-- Steps that succeed, one after another. -/
inductive Steps : Machine σ → Machine σ → Prop where
  | refl (m : Machine σ) : Steps m m
  | more {m m₁ m' : Machine σ} (h : m.step = (.ok (), m₁)) (t : Steps m₁ m') : Steps m m'

theorem Steps.of_fst {m m' : Machine σ} (h : m.step.1 = .ok ()) (t : Steps m.step.2 m') :
    Steps m m' :=
  .more (Prod.ext h rfl) t

/-- What holds at first and is kept by every step that succeeds holds after any chain of them. -/
theorem Steps.keeps {P : Machine σ → Prop} {m m' : Machine σ} (h : Steps m m') (h₀ : P m)
    (hk : ∀ m₁ m₂, P m₁ → m₁.step = (.ok (), m₂) → P m₂) : P m' := by
  induction h with
  | refl => exact h₀
  | more hs _ ih => exact ih (hk _ _ h₀ hs)

variable {m m' : Machine σ} {f : Fault}

/-- Only inside the program a step can succeed. -/
theorem pc_lt_length_of_step (hs : m.step = (.ok (), m')) :
    m.program.pc < m.program.length := by
  refine Nat.lt_of_not_le fun hle => ?_
  rw [step_of_decode_error (decodeAt_of_end _ hle)] at hs
  cases hs

/-- What a step leaves to work on is what its instruction leaves, wherever the program goes on. -/
theorem step_work {j : Instr Nat} {pc : Nat}
    (hd : decodeAt Reader.runnable m.program.code m.program.pc = (.ok j, pc)) :
    m.step.2.work = (j.perform m.work).2 := by
  rcases hp : j.perform m.work with ⟨f | c, w⟩
  · rw [step_of_perform_error hd hp]
  · rw [step_of_perform_ok hd hp]

/-- At its end a program runs no further. -/
theorem run_of_finished (h : m.program.length ≤ m.program.pc) : m.run = (.ok (), m) := by
  rw [run, dif_pos h]

/-- A run ends with a step that fails. -/
theorem run_of_step_error (h : m.program.pc < m.program.length)
    (hs : m.step = (.error f, m')) : m.run = (.error f, m') := by
  rw [run, dif_neg (Nat.not_le.mpr h)]
  split
  · next he => rw [hs] at he; cases he; rfl
  · next he => rw [hs] at he; cases he

/-- A run goes on behind a step. -/
theorem run_of_step_ok (hs : m.step = (.ok (), m')) : m.run = m'.run := by
  rw [run, dif_neg (Nat.not_le.mpr (pc_lt_length_of_step hs))]
  split
  · next he => rw [hs] at he; cases he
  · next he => rw [hs] at he; cases he; rfl

/-! ### Going on -/

section Follow

variable {limit target : Nat} {p : Program}

/-- With too many positions to return to, a call fails. -/
theorem follow_enter_of_full (h : limit ≤ p.depth) :
    follow limit (.enter target) p = (.error (.callDepthExceeded limit), p) := by
  rw [follow, Program.enter_apply, if_pos h]

/-- A call notes where to return to and goes to its body. -/
theorem follow_enter_of_room (h : p.depth < limit) (ht : target ≤ p.length) :
    follow limit (.enter target) p
      = (.ok (), ⟨p.code, target, p.pc :: p.continuations⟩) := by
  rw [follow, Program.enter_apply, if_neg (Nat.not_le.mpr h), Program.jump]
  exact if_neg (Nat.not_lt.mpr ht)

/-- With nothing to return to, a return halts. -/
theorem follow_leave_of_nil (h : p.continuations = []) :
    follow limit .leave p = (.ok (), p.halt) := by
  obtain ⟨code, pc, conts⟩ := p
  cases h
  rfl

/-- A return goes where the last call noted. -/
theorem follow_leave_of_cons {k : Nat} {r : List Nat} (h : p.continuations = k :: r)
    (hk : k ≤ p.length) : follow limit .leave p = (.ok (), ⟨p.code, k, r⟩) := by
  obtain ⟨code, pc, conts⟩ := p
  cases h
  exact if_neg (Nat.not_lt.mpr hk)

end Follow

/-! ### Steps of a linked program -/

variable {a : Assembly} {code : List UInt8} {i : Instr Token} {is : List (Instr Token)}

/-- **A step at an instruction.** At the place of an instruction the step fails as the instruction
fails, or it goes on from behind the instruction where the instruction leads. -/
theorem step_at (hl : a.Linked code) (hc : m.program.code = code.toArray)
    (hat : a.At m.program.pc (i :: is)) :
    (∃ f w pc, i.perform m.work = (.error f, w) ∧
      m.step = (.error f, { m with program := m.program.moveTo pc, work := w })) ∨
    (∃ c w r p, i.perform m.work = (.ok c, w) ∧
      follow m.maxCalls (c.map a.offsetOf) (m.program.moveTo (m.program.pc + i.size)) = (r, p) ∧
      m.step = (r, { m with program := p, work := w })) := by
  have hsound := hl.sound_mapLabels hat.mem
  have hp := congrFun (Instr.perform_mapLabels a.offsetOf i) m.work
  rcases hl.decodeAt_cases hat with ⟨f, pc, hd, hdec⟩ | hdec
  · -- the reader refuses an operand, and the instruction would have refused it as well
    rw [← hc] at hdec
    rw [Instr.perform_of_defect hsound hd] at hp
    refine .inl ⟨f, m.work, pc, ?_, step_of_decode_error hdec⟩
    rcases hi : i.perform m.work with ⟨e | c, w⟩
    · rw [Act.map_of_error hi] at hp
      cases hp
      rfl
    · rw [Act.map_of_ok hi] at hp
      cases hp
  · rw [← hc] at hdec
    rcases hi : i.perform m.work with ⟨f | c, w⟩
    · rw [Act.map_of_error hi] at hp
      exact .inl ⟨f, w, _, rfl, step_of_perform_error hdec hp⟩
    · rw [Act.map_of_ok hi] at hp
      exact .inr ⟨c, w, _, _, rfl, rfl, step_of_perform_ok hdec hp⟩

variable {w : Workspace σ}

/-- A step at an instruction of the assembly carries it out and goes on behind it. -/
theorem step_of_perform_next (hl : a.Linked code) (hc : m.program.code = code.toArray)
    (hat : a.At m.program.pc (i :: is)) (hp : i.perform m.work = (.ok .next, w)) :
    m.step = (.ok (),
      { m with program := m.program.moveTo (m.program.pc + i.size), work := w }) := by
  rcases step_at hl hc hat with ⟨f, w₁, pc, hp₁, -⟩ | ⟨c, w₁, r, p, hp₁, hf, hs⟩
  · rw [hp₁] at hp
    cases hp
  · rw [hp₁] at hp
    cases hp
    cases hf
    exact hs

/-- A step fails as its instruction does. -/
theorem step_of_perform_fault (hl : a.Linked code) (hc : m.program.code = code.toArray)
    (hat : a.At m.program.pc (i :: is)) (hp : i.perform m.work = (.error f, w)) :
    ∃ m', m.step = (.error f, m') ∧ m'.work = w := by
  rcases step_at hl hc hat with ⟨f, w₁, pc, hp₁, hs⟩ | ⟨c, w₁, r, p, hp₁, -, -⟩
  · rw [hp₁] at hp
    cases hp
    exact ⟨_, hs, rfl⟩
  · rw [hp₁] at hp
    cases hp

end Machine

end Proviso
