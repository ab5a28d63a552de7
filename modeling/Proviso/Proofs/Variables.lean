import Proviso.Proofs.Footprint
import Proviso.Proofs.Values
import Proviso.Proofs.Words

/-!
# Typed variables

A variable of a type is set from a cell of that type, which is stored as a word, and a load of that
type turns the word into a cell again. What is loaded is what was set: each type is stored in a form
from which its values are found again, and a store keeps what is put into a slot.

Main statement: `typed_values_come_back`, together with what holds of the forms themselves.
-/

namespace Proviso

namespace Scalar

/-- The values of a type. -/
@[reducible] def Carrier : Scalar → Type
  | .integer => UInt256
  | .flag    => Bool
  | .account => Address
  | .word    => Word

/-- A value on the stack. -/
def cell : (s : Scalar) → s.Carrier → Cell
  | .integer, v => .integer v
  | .flag,    b => .flag b
  | .account, a => .account a
  | .word,    w => .word w

/-- A value in storage. -/
def toWord : (s : Scalar) → s.Carrier → Word
  | .integer, v => .ofUInt256 v
  | .flag,    b => .ofBool b
  | .account, a => .ofAddress a
  | .word,    w => w

/-- The kind that a load of the type asks for. -/
def kind : Scalar → ValueKind
  | .integer => .uint256
  | .flag    => .bool
  | .account => .address
  | .word    => .bytes32

/-- The instruction that sets a variable of the type. -/
def setter (s : Scalar) (slot : Slot) : Instr Nat :=
  ⟨.set s, (slot, ())⟩

/-- The instruction that loads a variable of the type. -/
def loader (s : Scalar) (slot : Slot) : Instr Nat :=
  ⟨.loadLocal, (s.kind, slot, ())⟩

/-- A value is found again in the word that stores it. -/
theorem typedCell_toWord (s : Scalar) (v : s.Carrier) (op : Opcode) :
    typedCell op s.kind (s.toWord v) = .ok (s.cell v) := by
  cases s with
  | integer => exact congrArg (Except.ok ∘ Cell.integer) (UInt256.ofOctets_toOctets v)
  | flag    => exact congrArg (Except.ok ∘ Cell.flag) (Word.toBool_ofBool v)
  | account => exact congrArg (Except.ok ∘ Cell.account) (Word.toAddress_ofAddress v)
  | word    => rfl

variable {σ : Type} [Store σ] {w : Workspace σ} {slot : Slot}

/-- A setter takes the cell on top and stores its word. -/
theorem perform_setter (s : Scalar) (v : s.Carrier) (slot : Slot) (w : Workspace σ) :
    (s.setter slot).perform (w.pushed (s.cell v)) = (.ok .next, w.written slot (s.toWord v)) := by
  cases s <;> rfl

/-- A loader pushes the cell that the stored word stands for. -/
theorem perform_loader {s : Scalar} {v : s.Carrier} (hword : w.locals slot = s.toWord v)
    (hroom : w.stack.depth < w.stack.limit) :
    (s.loader slot).perform w = (.ok .next, w.pushed (s.cell v)) := by
  show (Effect.pushResult (typedCell .loadLocal s.kind (w.locals slot)) >>= fun _ =>
    pure Control.next) w = _
  rw [hword, s.typedCell_toWord]
  exact Act.bind_of_ok (Effect.push_of_room hroom _) _

theorem sound_loader (s : Scalar) (slot : Slot) : (s.loader slot).Sound IsOffset := by
  have hkind : s.kind ∈ Opcode.loadLocal.variants := by cases s <;> decide
  exact ⟨hkind, trivial, trivial⟩

theorem defect?_loader (s : Scalar) (slot : Slot) :
    (s.loader slot).defect? Reader.runnable = none := by
  cases s <;> rfl

end Scalar

namespace Machine

variable {σ : Type} [Store σ] {m : Machine σ} {w : Workspace σ}

/-- An instruction that stands at the position of the program, in order and not a branch, is carried
out and passed. -/
theorem step_of_stands {i : Instr Nat} (hsound : i.Sound IsOffset)
    (hdefect : i.defect? Reader.runnable = none)
    (hstands : Stands m.program.code m.program.pc i.encode)
    (hp : i.perform m.work = (.ok .next, w)) :
    m.step = (.ok (),
      { m with program := m.program.moveTo (m.program.pc + i.size), work := w }) :=
  step_of_perform_ok (decodeAt_encode hsound hdefect hstands) hp

/-- A variable that is set and then loaded gives the value back; in between, the value is off the
stack. -/
theorem set_then_load [LawfulStore σ] {s : Scalar} {v : s.Carrier} {slot : Slot}
    (hcode : Stands m.program.code m.program.pc ((s.setter slot).encode ++ (s.loader slot).encode))
    (hwork : m.work = w.pushed (s.cell v)) (hroom : m.work.stack.depth ≤ m.work.stack.limit) :
    ∃ m₁ m₂ : Machine σ, m.step = (.ok (), m₁) ∧ m₁.work = w.written slot (s.toWord v) ∧
      m₁.step = (.ok (), m₂) ∧ m₂.work = (w.written slot (s.toWord v)).pushed (s.cell v) := by
  have hset := step_of_stands (i := s.setter slot) ⟨trivial, trivial⟩ rfl hcode.left
    (hwork ▸ s.perform_setter v slot w)
  have hload : Stands m.program.code (m.program.pc + (s.setter slot).size)
      (s.loader slot).encode := by
    rw [← Instr.length_encode]
    exact hcode.right
  have hword : (w.written slot (s.toWord v)).locals slot = s.toWord v := by
    rw [Workspace.locals_written, if_pos rfl]
  have hfree : (w.written slot (s.toWord v)).stack.depth
      < (w.written slot (s.toWord v)).stack.limit := by
    rw [hwork] at hroom
    exact hroom
  exact ⟨_, _, hset, rfl, step_of_stands (s.sound_loader slot) (s.defect?_loader slot) hload
    (Scalar.perform_loader hword hfree), rfl⟩

end Machine

/-- **Typed values come back.** On a machine whose stack is within its limit, with a value of a type
on top: if the instructions that set and that load a variable of this type stand at the position of
the program, then both succeed, the first takes the value off and writes its slot, and the second
pushes exactly this value. The forms in which values are stored can be read back: the integers in
range and the strings of 32 bytes correspond to each other; so does a header to its word; a text
has a word exactly if it has at most 32 bytes, which gives it back without zeros at its end; and a
word that holds a text is the word of that text. -/
theorem typed_values_come_back :
    (∀ {σ : Type} [Store σ] [LawfulStore σ] (m : Machine σ) (w : Workspace σ) (s : Scalar)
        (v : s.Carrier) (slot : Slot),
      Stands m.program.code m.program.pc ((s.setter slot).encode ++ (s.loader slot).encode) →
      m.work = w.pushed (s.cell v) → m.work.stack.depth ≤ m.work.stack.limit →
      ∃ m₁ m₂ : Machine σ, m.step = (.ok (), m₁) ∧ m₁.work = w.written slot (s.toWord v) ∧
        m₁.step = (.ok (), m₂) ∧ m₂.work = (w.written slot (s.toWord v)).pushed (s.cell v)) ∧
    ((∀ v : UInt256, UInt256.ofOctets v.toOctets = v) ∧
      ∀ bs : Octets 32, (UInt256.ofOctets bs).toOctets = bs) ∧
    (∀ h : Header, Header.decode? h.encode = some h) ∧
    (∀ t : String, (Word.ofText? t = none ↔ 32 < t.utf8ByteSize) ∧
      ∀ w, Word.ofText? t = some w → w.toText? = some (withoutTrailingNuls t)) ∧
    ∀ (w : Word) (t : String), w.toText? = some t → Word.ofText? t = some w :=
  ⟨fun _ _ _ _ _ => Machine.set_then_load,
    ⟨UInt256.ofOctets_toOctets, Word.ofUInt256_toUInt256⟩, Header.decode?_encode,
    fun _ => ⟨Word.ofText?_eq_none_iff, fun _ => Word.toText?_of_ofText?⟩,
    fun _ _ => Word.ofText?_of_toText?⟩

/-- A flag on a stack that holds no more than it, and a text with a zero at its end. -/
theorem typed_values_come_back_on_full_stack :
    (∃ m m₁ m₂ : Machine Storage, m.work.stack = ⟨[.flag true], 1⟩ ∧ m.step = (.ok (), m₁) ∧
      m₁.work.stack = ⟨[], 1⟩ ∧ m₁.step = (.ok (), m₂) ∧ m₂.work.stack = ⟨[.flag true], 1⟩) ∧
    ∃ w, Word.ofText? "A\x00" = some w ∧ w.toText? = some "A" := by
  obtain ⟨hload, -, -, htext, -⟩ := typed_values_come_back
  constructor
  · let slot : Slot := .zero
    let bytes := (Scalar.flag.setter slot).encode ++ (Scalar.flag.loader slot).encode
    let w : Workspace Storage := ⟨.zero, .empty 1, .empty, .empty, []⟩
    let m : Machine Storage := ⟨.ofCode bytes.toArray, 0, w.pushed (.flag true)⟩
    have hcode : Stands m.program.code m.program.pc bytes :=
      ⟨[], [], by simp [m, Program.ofCode], rfl⟩
    obtain ⟨m₁, m₂, h₁, hw₁, h₂, hw₂⟩ := hload m w .flag true slot hcode rfl (Nat.le_refl 1)
    exact ⟨m, m₁, m₂, rfl, h₁, by rw [hw₁]; rfl, h₂, by rw [hw₂]; rfl⟩
  · obtain ⟨hnone, hsome⟩ := htext "A\x00"
    cases hw : Word.ofText? "A\x00" with
    | none => exact absurd (hnone.mp hw) (by decide)
    | some w => exact ⟨w, rfl, (hsome w hw).trans (by decide)⟩

end Proviso
