import Proviso.Act
import Proviso.Fault
import Proviso.Octets

/-!
# Programs with a cursor

The bytes of a program, the position in them, and the positions behind the branches that are still
to return.
-/

namespace Proviso

/-- A program under way; the innermost continuation comes first. -/
structure Program where
  code : Array UInt8
  pc : Nat
  continuations : List Nat

namespace Program

/-- A program at its first byte. -/
def ofCode (code : Array UInt8) : Program := ⟨code, 0, []⟩

/-- How many bytes there are. -/
def length (p : Program) : Nat := p.code.size

/-- Whether all bytes have been passed. -/
def finished (p : Program) : Bool := decide (p.length ≤ p.pc)

/-- How many branches are still to return. -/
def depth (p : Program) : Nat := p.continuations.length

/-- Where the innermost branch returns to. -/
def returnsTo? (p : Program) : Option Nat := p.continuations.head?

/-- The same program at another position. -/
def moveTo (p : Program) (pc : Nat) : Program := { p with pc := pc }

/-- The next `n` bytes; the position moves behind them if they are there. -/
def read (n : Nat) : Act Fault Program (Octets n) := fun p =>
  if h : p.pc + n ≤ p.code.size then
    (.ok ⟨(p.code.extract p.pc (p.pc + n)).toList, by simp; omega⟩, p.moveTo (p.pc + n))
  else
    (.error (.endOfBytecode p.pc n (p.length - p.pc)), p)

/-- Goes to a position; the end of the program is one. -/
def jump (target : Nat) : Act Fault Program Unit := fun p =>
  if p.length < target then (.error (.invalidJump target p.length), p)
  else (.ok (), p.moveTo target)

/-- Goes to the end. -/
def halt (p : Program) : Program := p.moveTo p.length

/-- Notes where a branch returns to, if fewer than `limit` are under way. -/
def pushContinuation (limit target : Nat) : Act Fault Program Unit := fun p =>
  if limit ≤ p.depth then (.error (.callDepthExceeded limit), p)
  else (.ok (), { p with continuations := target :: p.continuations })

/-- Takes off the innermost continuation. -/
def popContinuation (p : Program) : Option Nat × Program :=
  match p.continuations with
  | []     => (none, p)
  | k :: r => (some k, { p with continuations := r })

/-! ### Going on

Entering a body notes the position behind the branch; leaving one returns to the innermost such
position, or ends the program. -/

/-- Enters a body. -/
def enter (limit target : Nat) : Act Fault Program Unit := do
  let pc ← Act.look Program.pc
  pushContinuation limit pc
  jump target

/-- Leaves a body. -/
def leave : Act Fault Program Unit := fun p =>
  match p.popContinuation with
  | (some k, p') => jump k p'
  | (none, p')   => (.ok (), p'.halt)

/-! ### A measure of what is left to run -/

/-- What is left of each frame, the innermost first, weighed so that one byte of a frame outweighs
all that the bodies entered from it can run. -/
def weigh (size limit : Nat) : List Nat → Nat
  | []         => 0
  | f :: outer =>
    (size - f) * Nat.pow (size + 1) (limit - outer.length) + weigh size limit outer

/-- The weight of a program whose nesting is limited. -/
def weight (limit : Nat) (p : Program) : Nat :=
  weigh p.length limit (p.pc :: p.continuations)

/-- A frame nearer to its end weighs less. -/
theorem weigh_cons_lt {size limit f g : Nat} (outer : List Nat) (hf : f < size) (hg : f < g) :
    weigh size limit (g :: outer) < weigh size limit (f :: outer) := by
  have hpos : 0 < Nat.pow (size + 1) (limit - outer.length) := Nat.pow_pos (Nat.succ_pos _)
  have hr : size - g < size - f := by omega
  exact Nat.add_lt_add_right (Nat.mul_lt_mul_of_pos_right hr hpos) _

/-- A frame on top of one that has moved on weighs less than what moving on has saved. -/
theorem weigh_enter_lt {size limit f g target : Nat} {outer : List Nat} (hf : f < size)
    (hg : f < g) (hd : outer.length < limit) :
    weigh size limit (target :: g :: outer) < weigh size limit (f :: outer) := by
  have hs : limit - outer.length = limit - (outer.length + 1) + 1 := by omega
  have hp : Nat.pow (size + 1) (limit - outer.length)
      = Nat.pow (size + 1) (limit - (outer.length + 1)) * (size + 1) := by rw [hs]; rfl
  have hpos : 0 < Nat.pow (size + 1) (limit - (outer.length + 1)) :=
    Nat.pow_pos (Nat.succ_pos _)
  rw [weigh, weigh, weigh, List.length_cons, hp]
  generalize Nat.pow (size + 1) (limit - (outer.length + 1)) = w at hpos
  have h₁ : (size - target) * w ≤ size * w := Nat.mul_le_mul_right _ (Nat.sub_le _ _)
  have h₂ : (size - g + 1) * (w * (size + 1)) ≤ (size - f) * (w * (size + 1)) :=
    Nat.mul_le_mul_right _ (by omega)
  have h₃ : w * (size + 1) = size * w + w := by rw [Nat.mul_add, Nat.mul_one, Nat.mul_comm]
  rw [Nat.add_mul, Nat.one_mul] at h₂
  omega

/-- A program that is not at its end loses weight as it moves forward. -/
theorem weight_moveTo_lt (limit : Nat) (p : Program) {pc : Nat} (h : p.pc < p.length)
    (hpc : p.pc < pc) : (p.moveTo pc).weight limit < p.weight limit :=
  weigh_cons_lt p.continuations h hpc

/-- Entering a body goes to it if there is room for one more. -/
theorem enter_apply (limit target : Nat) (p : Program) :
    enter limit target p =
      if limit ≤ p.depth then (.error (.callDepthExceeded limit), p)
      else jump target { p with continuations := p.pc :: p.continuations } := by
  rw [enter, Act.bind_apply]
  show (pushContinuation limit p.pc >>= fun _ => jump target) p = _
  rw [Act.bind_apply, pushContinuation]
  by_cases hd : limit ≤ p.depth
  · rw [if_pos hd, if_pos hd]
  · rw [if_neg hd, if_neg hd]

/-- What entering a body leaves, and that there was room for it. -/
theorem enter_eq_ok {limit target : Nat} {p p' : Program}
    (h : enter limit target p = (.ok (), p')) :
    p.continuations.length < limit ∧ p' = ⟨p.code, target, p.pc :: p.continuations⟩ := by
  rw [enter_apply] at h
  split at h
  · cases h
  · next hd =>
    rw [jump] at h
    split at h
    · cases h
    · cases h
      exact ⟨Nat.lt_of_not_le hd, rfl⟩

/-- A body entered from behind a branch weighs less than the branch. -/
theorem weight_enter_lt {limit target pc : Nat} {p p' : Program} (h : p.pc < p.length)
    (hpc : p.pc < pc) (he : enter limit target (p.moveTo pc) = (.ok (), p')) :
    p'.weight limit < p.weight limit := by
  obtain ⟨hd, rfl⟩ := enter_eq_ok he
  exact weigh_enter_lt h hpc hd

/-- A return loses weight: there is one position less to come back to. -/
theorem weight_leave_lt {limit pc : Nat} {p p' : Program} (h : p.pc < p.length)
    (hl : leave (p.moveTo pc) = (.ok (), p')) : p'.weight limit < p.weight limit := by
  obtain ⟨code, pc₀, conts⟩ := p
  have hpos : 0 < (code.size - pc₀) * Nat.pow (code.size + 1) (limit - conts.length) :=
    Nat.mul_pos (Nat.sub_pos_of_lt h) (Nat.pow_pos (Nat.succ_pos _))
  cases conts with
  | nil =>
    cases hl
    exact weigh_cons_lt [] h h
  | cons k r =>
    rw [leave] at hl
    change jump k ⟨code, pc, r⟩ = _ at hl
    rw [jump] at hl
    split at hl
    · cases hl
    · cases hl
      exact Nat.lt_add_of_pos_left hpos

end Program

end Proviso
