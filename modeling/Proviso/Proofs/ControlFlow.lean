import Mathlib.Control.Monad.Basic
import Proviso.Evaluate
import Proviso.Proofs.Stepping

/-!
# Control flow in assembled programs

In a program that was assembled from tokens, the machine is always at the first byte of an
instruction or at the end of the program, and so is every position it will return to. It never
takes the bytes of an operand for an instruction, and never leaves the program.

The invariant is `Program.OnTrack`. A step that succeeds keeps it: the reader stops behind the
instruction, a branch goes to the first instruction of a body, and a return goes to a position that
was on track when it was noted. Where it holds, an instruction can fail by its effect or for want
of room for a branch, but not because its bytes make no sense (`Machine.step_of_onTrack`).
-/

namespace Proviso

namespace Assembly

variable {a : Assembly} {pc : Nat} {is : List (Instr Token)}

/-- The first byte of one of the instructions has the offset `k` in the linked program. -/
def IsStart (a : Assembly) (k : Nat) : Prop :=
  ∃ before i behind, a.instrs = before ++ i :: behind ∧ k = (a.bytes before).length

theorem At.nil (h : a.At pc is) : a.At pc [] := by
  obtain ⟨before, behind, ha, hpc⟩ := h
  exact ⟨before, is ++ behind, by rw [ha]; simp, hpc⟩

/-- A place in the layout is its end or the place of an instruction. -/
theorem At.eq_size_or_cons (h : a.At pc []) : pc = a.size ∨ ∃ i is, a.At pc (i :: is) := by
  obtain ⟨before, behind, ha, rfl⟩ := h
  cases behind with
  | nil =>
    refine .inl ?_
    rw [size, ha, List.append_nil, List.append_nil]
  | cons i is => exact .inr ⟨i, is, before, [], by rw [ha]; simp, rfl⟩

/-- Where an instruction stands, one starts. -/
theorem At.isStart {i : Instr Token} (h : a.At pc (i :: is)) : a.IsStart pc := by
  obtain ⟨before, behind, ha, rfl⟩ := h
  exact ⟨before, i, is ++ behind, by rw [ha]; simp, (length_bytes before).symm⟩

end Assembly

/-- The program is the linked one and is at the place of an instruction or at its end, and so is
every position that it returns to. -/
structure Program.OnTrack (a : Assembly) (code : List UInt8) (p : Program) : Prop where
  code_eq : p.code = code.toArray
  places : ∀ k ∈ p.pc :: p.continuations, a.At k []

/-- A program starts on track. -/
theorem Program.onTrack_ofCode (a : Assembly) (code : List UInt8) :
    (Program.ofCode code.toArray).OnTrack a code := by
  refine ⟨rfl, fun k hk => ?_⟩
  rw [List.mem_singleton.mp hk]
  exact a.at_main.nil

namespace Program.OnTrack

variable {a : Assembly} {code : List UInt8} {p : Program}

theorem length_eq (h : p.OnTrack a code) (hl : a.Linked code) : p.length = a.size := by
  rw [Program.length, h.code_eq, List.size_toArray, hl.length_code]

/-- A program stays on track at any place where instructions stand. -/
theorem moveTo (h : p.OnTrack a code) {pc : Nat} (hpc : a.At pc []) :
    (p.moveTo pc).OnTrack a code := by
  refine ⟨h.code_eq, fun k hk => ?_⟩
  rcases List.mem_cons.mp hk with rfl | hk
  · exact hpc
  · exact h.places k (.tail _ hk)

/-- A program on track that is not at its end is at an instruction. -/
theorem exists_instr (h : p.OnTrack a code) (hl : a.Linked code) (hpc : p.pc < p.length) :
    ∃ i is, a.At p.pc (i :: is) := by
  rcases (h.places p.pc (.head _)).eq_size_or_cons with he | hi
  · rw [h.length_eq hl, he] at hpc
    exact absurd hpc (Nat.lt_irrefl _)
  · exact hi

/-- Wherever the program is, one of the instructions is read, or none and no part of a struct. -/
theorem decodeAt_cases (h : p.OnTrack a code) (hl : a.Linked code) :
    (∃ f pc, decodeAt Reader.runnable p.code p.pc = (.error ⟨f, []⟩, pc)) ∨
    ∃ i ∈ a.instrs, ∃ pc,
      decodeAt Reader.runnable p.code p.pc = (.ok (i.mapLabels a.offsetOf), pc) := by
  by_cases hpc : p.pc < p.length
  · obtain ⟨i, is, hat⟩ := h.exists_instr hl hpc
    rw [h.code_eq]
    rcases hl.decodeAt_cases hat with ⟨f, pc, -, hd⟩ | hd
    · exact .inl ⟨f, pc, hd⟩
    · exact .inr ⟨i, hat.mem, _, hd⟩
  · exact .inl ⟨_, _, decodeAt_of_end _ (Nat.not_lt.mp hpc)⟩

/-- Going on where an instruction leads stays on track, unless there is no room for a branch. -/
theorem follow (hl : a.Linked code) (h : p.OnTrack a code) (limit : Nat) (c : Control Token)
    (hc : ∀ l, c = .enter l → ∃ body, a.bodies.lookup l = some body) :
    Machine.follow limit (c.map a.offsetOf) p = (.error (.callDepthExceeded limit), p) ∨
      ∃ p', Machine.follow limit (c.map a.offsetOf) p = (.ok (), p') ∧ p'.OnTrack a code := by
  cases c with
  | next => exact .inr ⟨p, rfl, h⟩
  | enter l =>
    obtain ⟨body, hb⟩ := hc l rfl
    by_cases hd : limit ≤ p.depth
    · exact .inl (Machine.follow_enter_of_full hd)
    · have hle : a.offsetOf l ≤ p.length := (h.length_eq hl).symm ▸ a.offsetOf_le_size l
      refine .inr ⟨_, Machine.follow_enter_of_room (Nat.lt_of_not_le hd) hle, h.code_eq, ?_⟩
      intro k hk
      rcases List.mem_cons.mp hk with rfl | hk
      · exact (Assembly.at_offsetOf hb).nil
      · exact h.places k hk
  | leave =>
    cases hp : p.continuations with
    | nil =>
      refine .inr ⟨p.halt, Machine.follow_leave_of_nil hp, h.moveTo ?_⟩
      rw [h.length_eq hl]
      exact a.at_size
    | cons k r =>
      -- the position was on track when it was noted, so it lies inside the program
      have hk : a.At k [] := h.places k (hp ▸ .tail _ (.head _))
      have hle : k ≤ p.length := (h.length_eq hl).symm ▸ hk.le_size
      refine .inr ⟨_, Machine.follow_leave_of_cons hp hle, h.code_eq, fun j hj => ?_⟩
      exact h.places j (hp ▸ .tail _ hj)

end Program.OnTrack

namespace Machine

variable {σ : Type} [Store σ] {a : Assembly} {code : List UInt8} {m m' : Machine σ}

/-- **A step on track.** Before the end, a step succeeds and stays on track, or fails for a reason
other than the bytes of the program. -/
theorem step_of_onTrack (hl : a.Linked code) (h : m.program.OnTrack a code)
    (hpc : m.program.pc < m.program.length) :
    (∃ f m', m.step = (.error f, m') ∧ ¬ f.IsMalformed) ∨
      ∃ m', m.step = (.ok (), m') ∧ m'.program.OnTrack a code := by
  obtain ⟨i, is, hat⟩ := h.exists_instr hl hpc
  rcases step_at hl h.code_eq hat with ⟨f, w, pc, hp, hs⟩ | ⟨c, w, r, p, hp, hf, hs⟩
  · exact .inl ⟨f, _, hs, i.regular_perform m.work f w hp⟩
  · have hc : ∀ l, c = .enter l → ∃ body, a.bodies.lookup l = some body := by
      rintro l rfl
      exact hl.resolved i hat.mem l (i.leads_perform m.work _ w hp)
    rcases (h.moveTo hat.tail.nil).follow hl m.maxCalls c hc with he | ⟨p', he, ht⟩
    · rw [he] at hf
      cases hf
      exact .inl ⟨_, _, hs, id⟩
    · rw [he] at hf
      cases hf
      exact .inr ⟨_, hs, ht⟩

/-- Steps stay on track, by induction on them. -/
theorem onTrack_of_steps (hl : a.Linked code) (h : m.program.OnTrack a code)
    (hr : Steps m m') : m'.program.OnTrack a code := by
  refine hr.keeps (P := fun m => m.program.OnTrack a code) h fun m₁ m₂ h₁ hs => ?_
  rcases step_of_onTrack hl h₁ (pc_lt_length_of_step hs) with ⟨f, m', he, -⟩ | ⟨m', he, ht⟩
  · rw [he] at hs
    cases hs
  · rw [he] at hs
    cases hs
    exact ht

/-- **Control flow integrity.** Whatever tokens a program was assembled from, after any number of
steps that succeed the machine is at the first byte of an instruction or at the end of the program,
and so is every position it will return to. A step taken before the end does not fail because of
the bytes of the program. -/
theorem assembled_control_flow {tokens : List Token} (ha : assemble tokens = .ok code)
    (account : Address) (limits : Limits) (store : σ) (host : Host)
    (hr : Steps ((fresh account limits store host).load code.toArray) m) :
    ∃ a : Assembly, Assembly.ofTokens .standard tokens = .ok a ∧ a.link = .ok code ∧
      (∀ k ∈ m.program.pc :: m.program.continuations, a.IsStart k ∨ k = code.length) ∧
      (m.program.pc < code.length → ∀ f m', m.step = (.error f, m') → ¬ f.IsMalformed) := by
  obtain ⟨a, hp, hlink⟩ := assemble_eq_ok ha
  have hl := Assembly.linked_of_tokens hp hlink
  have h₀ : ((fresh account limits store host).load code.toArray).program.OnTrack a code := by
    refine ⟨rfl, fun k hk => ?_⟩
    rw [List.mem_singleton.mp hk]
    exact a.at_main.nil
  have h := onTrack_of_steps hl h₀ hr
  refine ⟨a, hp, hlink, fun k hk => ?_, fun hpc f m' hs => ?_⟩
  · rcases (h.places k hk).eq_size_or_cons with he | ⟨i, is, hat⟩
    · exact .inr (he.trans hl.length_code.symm)
    · exact .inl hat.isStart
  · have hlen : m.program.length = code.length := (h.length_eq hl).trans hl.length_code.symm
    rcases step_of_onTrack hl h (hlen.symm ▸ hpc) with ⟨f, m', he, hf⟩ | ⟨m', he, -⟩
    · rw [he] at hs
      cases hs
      exact hf
    · rw [he] at hs
      cases hs

/-- A machine inside a body, with the position behind the branch still to return to. -/
theorem assembled_control_flow_in_body :
    ∃ m, Steps ((fresh .zero .default (.empty : Storage) .empty).load
        #[49, 1, 32, 0, 6, 35, 49, 0, 35]) m ∧
      m.program.pc :: m.program.continuations = [6, 5] ∧
      ∃ a : Assembly, a.link = .ok [49, 1, 32, 0, 6, 35, 49, 0, 35] ∧
        (∀ k ∈ [6, 5], a.IsStart k ∨ k = 9) ∧
        ∀ f m', m.step = (.error f, m') → ¬ f.IsMalformed := by
  have ha : assemble ["bool", "true", "if", "yes", "end", "yes", "bool", "false", "end"]
      = .ok [49, 1, 32, 0, 6, 35, 49, 0, 35] := by decide +kernel
  let m₀ := (fresh .zero .default (.empty : Storage) .empty).load #[49, 1, 32, 0, 6, 35, 49, 0, 35]
  have h₁ : m₀.step.1 = .ok () := by decide +kernel
  have h₂ : m₀.step.2.step.1 = .ok () := by decide +kernel
  have hr : Steps m₀ m₀.step.2.step.2 := .of_fst h₁ (.of_fst h₂ (.refl _))
  have hm : m₀.step.2.step.2.program.pc :: m₀.step.2.step.2.program.continuations = [6, 5] := by
    decide +kernel
  obtain ⟨a, -, hl, hk, hf⟩ := assembled_control_flow ha .zero .default Table.empty .empty hr
  exact ⟨_, hr, hm, a, hl, hm ▸ hk, hf (by decide +kernel)⟩

end Machine

end Proviso
