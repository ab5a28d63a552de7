import Mathlib.Control.Monad.Basic
import Proviso.Proofs.Stepping

/-!
# Listing and execution read alike

A listing reads any instruction whose bytes are there, by the table of operands. Execution goes
through the handler of the instruction's family, which reads the operands by itself, checks each
when it has it, and carries the instruction out. That a handler reads as the table says is
`Machine.step_eq_decoded`; and a check can only cut a reading short (`Reader.CutsShort`). So on any
bytes the two agree on where an instruction ends, and execution that fails stops inside it.

Where a step goes is said once, by the rules of `Program.Goes`: behind the instruction, into a body
with the position behind the instruction noted, or back. `Machine.step_goes` is the inversion of a
step that succeeds.

Main statement: `Machine.step_reads_as_listed`.
-/

namespace Proviso

/-! ### Readings that are cut short -/

namespace Reader

variable {code : Array UInt8} {α β : Type} {r s : Reader α}

/-- The reader `r` reads as `s` does, or fails on the way to where `s` stops. -/
def CutsShort (r s : Reader α) : Prop :=
  ∀ pc, r pc = s pc ∨ ∃ e pc', r pc = (.error e, pc') ∧ pc ≤ pc' ∧ pc' ≤ (s pc).2

theorem CutsShort.refl (r : Reader α) : CutsShort r r :=
  fun _ => .inl rfl

/-- A failure on the spot cuts any reading short. -/
theorem CutsShort.fail (e : ReadFailure) (hs : Forward code s) : CutsShort (Act.fail e) s :=
  fun pc => .inr ⟨e, pc, rfl, Nat.le_refl _, (hs pc).1⟩

/-- Readings are cut short one after the other: the first to fail stops both. -/
theorem CutsShort.bind {f g : α → Reader β} (hr : CutsShort r s) (hs : Forward code s)
    (hf : ∀ a, CutsShort (f a) (g a)) (hg : ∀ a, Forward code (g a)) :
    CutsShort (r >>= f) (s >>= g) := by
  intro pc
  have hle := (hs pc).1
  rcases hr pc with he | ⟨e, pc', he, h₁, h₂⟩
  · rcases hrun : s pc with ⟨e | a, pc₁⟩
    · rw [Act.bind_of_error hrun, Act.bind_of_error (he.trans hrun)]
      exact .inl rfl
    · rw [Act.bind_of_ok hrun, Act.bind_of_ok (he.trans hrun)]
      rw [hrun] at hle
      rcases hf a pc₁ with he | ⟨e, pc', he, h₁, h₂⟩
      · exact .inl he
      · exact .inr ⟨e, pc', he, Nat.le_trans hle h₁, h₂⟩
  · -- the second reader goes on from where it stops, and never back
    refine .inr ⟨e, pc', Act.bind_of_error he f, h₁, Nat.le_trans h₂ ?_⟩
    rcases hrun : s pc with ⟨e | a, pc₁⟩
    · exact Nat.le_of_eq (congrArg Prod.snd (Act.bind_of_error hrun g).symm)
    · rw [Act.bind_of_ok hrun]
      exact (hg a pc₁).1

/-- Operands are read alike with a check and without, or the check stops inside them. -/
theorem cutsShort_operands (check : Check) (op : Opcode) (ps : List Param) :
    CutsShort (operands code check op ps) (operands code anyOperand op ps) := by
  induction ps with
  | nil => exact .refl _
  | cons p ps ih =>
    have hrest : ∀ a : Operand Nat p.kind, Forward code (do
        let as ← operands code anyOperand op ps
        return ((a, as) : Operands Nat (p :: ps))) :=
      fun a => (forward_operands anyOperand op ps).bind fun _ => .pure _
    refine .bind (.refl _) (forward_operand op p.kind) (fun a => ?_) hrest
    cases check op p.kind a with
    | some f => exact .fail _ (hrest a)
    | none => exact ih.bind (forward_operands anyOperand op ps) (fun _ => .refl _) fun _ => .pure _

/-- So is a whole instruction. -/
theorem cutsShort_instrOf (check : Check) (offset : Nat) (c : UInt8) :
    CutsShort (instrOf code check offset c) (instrOf code anyOperand offset c) := by
  rw [instrOf, instrOf]
  cases Opcode.ofCode? c with
  | none => exact .refl _
  | some op =>
    exact (cutsShort_operands check op _).bind (forward_operands anyOperand op _)
      (fun _ => .refl _) fun _ => .pure _

end Reader

/-- On any bytes, a check lets an instruction pass as it is listed, or stops behind its first byte
and not behind its end. -/
theorem decodeAt_cutsShort (check : Reader.Check) {code : Array UInt8} {pc : Nat}
    (h : pc < code.size) :
    decodeAt check code pc = decodeAt Reader.anyOperand code pc ∨
    ∃ e pc', decodeAt check code pc = (.error e, pc') ∧ pc < pc' ∧
      pc' ≤ (decodeAt Reader.anyOperand code pc).2 := by
  have hb := decodeAt_bounds check code h
  have hcuts : Reader.CutsShort (Reader.byte code >>= Reader.instrOf code check pc)
      (Reader.byte code >>= Reader.instrOf code Reader.anyOperand pc) :=
    .bind (.refl _) Reader.forward_byte (Reader.cutsShort_instrOf check pc)
      (Reader.forward_instrOf Reader.anyOperand pc)
  rcases hcuts pc with he | ⟨e, pc', he, -, hle⟩
  · exact .inl he
  · have hd : decodeAt check code pc = (.error e, pc') := he
    rw [hd] at hb
    exact .inr ⟨e, pc', hd, hb.1, hle⟩

/-! ### Where a step goes -/

/-- Where a program at an instruction goes on, with `next` the position behind the instruction and
`top` the topmost cell before it. -/
inductive Program.Goes (p : Program) (next : Nat) (top : Option Cell) :
    Instr Nat → Program → Prop where
  | on {i : Instr Nat} (h : i.opcode.category ≠ .branching) : Goes p next top i (p.moveTo next)
  | skip {body : Nat} (h : top = some (.flag false)) :
      Goes p next top ⟨.ifThen, (body, ())⟩ (p.moveTo next)
  | enter {body : Nat} (h : top = some (.flag true)) :
      Goes p next top ⟨.ifThen, (body, ())⟩ ⟨p.code, body, next :: p.continuations⟩
  | choose {good bad : Nat} {b : Bool} (h : top = some (.flag b)) :
      Goes p next top ⟨.ifElse, (good, bad, ())⟩
        ⟨p.code, if b then good else bad, next :: p.continuations⟩
  | call {body : Nat} :
      Goes p next top ⟨.call, (body, ())⟩ ⟨p.code, body, next :: p.continuations⟩
  | back {k : Nat} {r : List Nat} (h : p.continuations = k :: r) :
      Goes p next top ⟨.close, ()⟩ ⟨p.code, k, r⟩
  | halt (h : p.continuations = []) : Goes p next top ⟨.close, ()⟩ p.halt

/-- A flag that is taken was on top. -/
theorem Stack.popFlag_eq_ok {op : String} {s s' : Stack} {b : Bool}
    (h : popFlag op s = (.ok b, s')) : s.top? = some (.flag b) := by
  obtain ⟨cells, limit⟩ := s
  cases cells with
  | nil => cases h
  | cons c r =>
    cases c <;> cases h
    rfl

/-- Only branches have labels. -/
theorem Instr.labels_of_not_branching {L : Type} {i : Instr L}
    (h : i.opcode.category ≠ .branching) : i.labels = [] := by
  obtain ⟨op, as⟩ := i
  cases op with
  | ifThen | ifElse | call | close => exact absurd rfl h
  | literal s => cases s <;> rfl
  | _ => rfl

section Perform

variable {σ L : Type} {w w' : Workspace σ} {c : Control L}

theorem Effect.onStack_eq_ok {α : Type} {x : Act Fault Stack α} {a : α}
    (h : (Effect.onStack x : Effect σ α) w = (.ok a, w')) :
    ∃ s, x w.stack = (.ok a, s) := by
  rcases hx : x w.stack with ⟨r, s⟩
  rw [onStack, Act.within, hx] at h
  cases h
  exact ⟨s, rfl⟩

/-- A branch on a flag finds that flag on top, and takes the way that it says. -/
theorem Effect.branch_eq_ok {op : String} {yes no : Control L}
    (h : (do if ← onStack (Stack.popFlag op) then return yes else return no
      : Effect σ (Control L)) w = (.ok c, w')) :
    ∃ b : Bool, w.stack.top? = some (.flag b) ∧ c = if b then yes else no := by
  rcases hp : (onStack (Stack.popFlag op) : Effect σ Bool) w with ⟨f | b, w₁⟩
  · rw [Act.bind_of_error hp] at h
    cases h
  · rw [Act.bind_of_ok hp] at h
    obtain ⟨s, hs⟩ := onStack_eq_ok hp
    refine ⟨b, Stack.popFlag_eq_ok hs, ?_⟩
    cases b <;> cases h <;> rfl

/-- An instruction that does not branch leads to the next one. -/
theorem Instr.perform_of_not_branching [Store σ] {i : Instr L} (hi : i.opcode.category ≠ .branching)
    (h : i.perform w = (.ok c, w')) : c = .next := by
  have hl := i.leads_perform w c w' h
  cases c with
  | next => rfl
  | enter target =>
    rw [Leads, labels_of_not_branching hi] at hl
    cases hl
  | leave => exact absurd (congrArg Opcode.category hl) hi

end Perform

namespace Machine

section Follow

variable {limit : Nat} {p p' : Program} {c : Control Nat} {f : Fault}

/-- A return halts the program or goes to the position noted last. -/
theorem follow_leave_eq_ok (h : follow limit .leave p = (.ok (), p')) :
    (p.continuations = [] ∧ p' = p.halt) ∨
    ∃ k r, p.continuations = k :: r ∧ p' = ⟨p.code, k, r⟩ := by
  cases hc : p.continuations with
  | nil =>
    rw [follow_leave_of_nil hc] at h
    cases h
    exact .inl ⟨rfl, rfl⟩
  | cons k r =>
    obtain ⟨code, pc, conts⟩ := p
    cases hc
    change Program.jump k ⟨code, pc, r⟩ = _ at h
    rw [Program.jump] at h
    split at h
    · cases h
    · cases h
      exact .inr ⟨k, r, rfl, rfl⟩

/-- A jump that fails leaves the program where it is. -/
theorem jump_eq_error {target : Nat} (h : Program.jump target p = (.error f, p')) : p' = p := by
  rw [Program.jump] at h
  split at h
  · cases h
    rfl
  · cases h

/-- Going on fails without moving. -/
theorem pc_of_follow_error (h : follow limit c p = (.error f, p')) : p'.pc = p.pc := by
  obtain ⟨code, pc, conts⟩ := p
  cases c with
  | next => cases h
  | enter target =>
    rw [follow, Program.enter_apply] at h
    split at h
    · cases h
      rfl
    · rw [jump_eq_error h]
  | leave =>
    cases conts with
    | nil => cases h
    | cons k r =>
      change Program.jump k ⟨code, pc, r⟩ = _ at h
      rw [jump_eq_error h]

end Follow

variable {σ : Type} [Store σ] {m m' : Machine σ} {f : Fault}

/-- Going on as an instruction says follows the rules. -/
theorem goes_of_perform {i : Instr Nat} {next : Nat} {c : Control Nat} {w : Workspace σ}
    {p : Program} (hp : i.perform m.work = (.ok c, w))
    (hf : follow m.maxCalls c (m.program.moveTo next) = (.ok (), p)) :
    m.program.Goes next m.top? i p := by
  have henter : ∀ target, follow m.maxCalls (.enter target) (m.program.moveTo next) = (.ok (), p) →
      p = ⟨m.program.code, target, next :: m.program.continuations⟩ :=
    fun _ h => (Program.enter_eq_ok h).2
  by_cases hi : i.opcode.category = .branching
  · obtain ⟨op, as⟩ := i
    cases op with
    | ifThen =>
      obtain ⟨b, htop, rfl⟩ := Effect.branch_eq_ok hp
      cases b with
      | true =>
        rw [henter _ hf]
        exact .enter htop
      | false =>
        cases hf
        exact .skip htop
    | ifElse =>
      obtain ⟨b, htop, rfl⟩ := Effect.branch_eq_ok hp
      cases b with
      | true =>
        rw [henter _ hf]
        exact .choose htop
      | false =>
        rw [henter _ hf]
        exact .choose htop
    | call =>
      cases hp
      rw [henter _ hf]
      exact .call
    | close =>
      cases hp
      rcases follow_leave_eq_ok hf with ⟨hc, rfl⟩ | ⟨k, r, hc, rfl⟩
      · exact .halt hc
      · exact .back hc
    | _ => cases hi
  · obtain rfl := Instr.perform_of_not_branching hi hp
    cases hf
    exact .on hi

/-- **Where a step goes.** A step that succeeds has read an instruction and goes on by the rules. -/
theorem step_goes (hs : m.step = (.ok (), m')) :
    ∃ i next, decodeAt Reader.runnable m.program.code m.program.pc = (.ok i, next) ∧
      m.program.Goes next m.top? i m'.program := by
  rcases hd : decodeAt Reader.runnable m.program.code m.program.pc with ⟨e | i, next⟩
  · rw [step_of_decode_error hd] at hs
    cases hs
  · rcases hp : i.perform m.work with ⟨f | c, w⟩
    · rw [step_of_perform_error hd hp] at hs
      cases hs
    · rw [step_of_perform_ok hd hp] at hs
      obtain ⟨hr, rfl⟩ := Prod.mk.inj hs
      exact ⟨i, next, rfl, goes_of_perform hp (Prod.ext hr rfl)⟩

/-- A step that fails stops where its reading stops. -/
theorem pc_of_step_error (hs : m.step = (.error f, m')) :
    m'.program.pc = (decodeAt Reader.runnable m.program.code m.program.pc).2 := by
  rcases hd : decodeAt Reader.runnable m.program.code m.program.pc with ⟨e | i, next⟩
  · rw [step_of_decode_error hd] at hs
    cases hs
    rfl
  · rcases hp : i.perform m.work with ⟨f | c, w⟩
    · rw [step_of_perform_error hd hp] at hs
      cases hs
      rfl
    · rw [step_of_perform_ok hd hp] at hs
      obtain ⟨hr, rfl⟩ := Prod.mk.inj hs
      exact pc_of_follow_error (Prod.ext hr rfl)

/-- **Listing and execution read alike.** On any bytes and from any machine inside its program: if a
step succeeds, the listing reads an instruction there as well, and the step goes on by the rules
from the position at which the listing goes on; if the listing reads none, the step fails; and a
step that fails where the listing reads an instruction stops inside that instruction or right behind
it. -/
theorem step_reads_as_listed (m : Machine σ) (hpc : m.program.pc < m.program.length) :
    let p := m.program.pc
    let listed := decodeAt Reader.anyOperand m.program.code p
    (∀ m', m.step = (.ok (), m') →
      ∃ i n, listed = (.ok i, p + n) ∧ m.program.Goes (p + n) m.top? i m'.program) ∧
    (∀ e next, listed = (.error e, next) → ∃ f m', m.step = (.error f, m')) ∧
    (∀ i n f m', listed = (.ok i, p + n) → m.step = (.error f, m') →
      p < m'.program.pc ∧ m'.program.pc ≤ p + n) := by
  intro p listed
  have hcuts := decodeAt_cutsShort Reader.runnable hpc
  have hbounds := decodeAt_bounds Reader.runnable m.program.code hpc
  refine ⟨fun m' hs => ?_, fun e next hl => ?_, fun i n f m' hl hs => ?_⟩
  · obtain ⟨i, next, hd, hg⟩ := step_goes hs
    rcases hcuts with he | ⟨e, pc', he, -⟩
    · rw [hd] at hbounds
      have hn : p + (next - p) = next := Nat.add_sub_cancel' (Nat.le_of_lt hbounds.1)
      exact ⟨i, next - p, by rw [hn]; exact he.symm.trans hd, by rw [hn]; exact hg⟩
    · rw [hd] at he
      cases he
  · rcases hs : m.step with ⟨f | _, m'⟩
    · exact ⟨f, m', rfl⟩
    · obtain ⟨i, next', hd, -⟩ := step_goes hs
      rcases hcuts with he | ⟨e, pc', he, -⟩
      · cases hl.symm.trans (he.symm.trans hd)
      · rw [hd] at he
        cases he
  · rw [pc_of_step_error hs]
    refine ⟨hbounds.1, ?_⟩
    have hle : (decodeAt Reader.runnable m.program.code p).2 ≤ listed.2 := by
      rcases hcuts with he | ⟨e, pc', he, -, hle⟩
      · exact Nat.le_of_eq (congrArg Prod.snd he)
      · rw [he]
        exact hle
    rwa [hl] at hle

/-- A call is listed and taken, with the position behind it noted; a load of a kind that no load has
is listed, and execution stops behind that kind. -/
theorem step_reads_as_listed_at_call_and_bad_kind :
    let call := (fresh .zero .default (.empty : Storage) .empty).load #[34, 0, 3, 35]
    let bad := (fresh .zero .default (.empty : Storage) .empty).load #[64, 6, 0, 0, 0, 0]
    (call.step.1 = .ok () ∧ call.step.2.program.continuations = [3] ∧
      ∃ i n, decodeAt Reader.anyOperand call.program.code call.program.pc
          = (.ok i, call.program.pc + n) ∧
        call.program.Goes (call.program.pc + n) call.top? i call.step.2.program) ∧
    (bad.step.1 = .error (.invalidVariant "loadLocal" 6) ∧
      decodeAt Reader.anyOperand bad.program.code bad.program.pc
        = (.ok ⟨.loadLocal, (.struct, .zero, ())⟩, bad.program.pc + 6) ∧
      bad.program.pc < bad.step.2.program.pc ∧
      bad.step.2.program.pc ≤ bad.program.pc + 6) := by
  intro call bad
  have hcall : call.step.1 = .ok () := by decide +kernel
  have hnoted : call.step.2.program.continuations = [3] := by decide +kernel
  have hbad : bad.step.1 = .error (.invalidVariant "loadLocal" 6) := by decide +kernel
  have hlisted : decodeAt Reader.anyOperand bad.program.code bad.program.pc
      = (.ok ⟨.loadLocal, (.struct, .zero, ())⟩, bad.program.pc + 6) := rfl
  have hcall' : call.program.pc < call.program.length := by decide
  have hbad' : bad.program.pc < bad.program.length := by decide
  -- from here on what the machines are does not matter
  clear_value call bad
  exact ⟨⟨hcall, hnoted, (step_reads_as_listed call hcall').1 _ (Prod.ext hcall rfl)⟩, hbad,
    hlisted, (step_reads_as_listed bad hbad').2.2 _ _ _ _ hlisted (Prod.ext hbad rfl)⟩

end Machine

end Proviso
