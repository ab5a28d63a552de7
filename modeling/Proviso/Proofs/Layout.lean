import Proviso.Assembly.Link
import Proviso.Proofs.Performing

/-!
# The layout of an assembly

What reading tokens and linking guarantee about a program. Every instruction that is read from
tokens is sound; a block that does not end with its closing instruction is the last one. Linking
puts the instructions one after another, so that the bytes of each stand at the sum of the sizes
before it, and a label stands for the place of the first instruction of its body.

`Assembly.Linked` collects these guarantees, and `Assembly.linked_of_tokens` establishes them.
-/

namespace Proviso

/-! ### Instructions read from tokens -/

/-- Sound as long as nothing is known about branch targets yet. -/
abbrev Instr.SoundOperands (i : Instr Token) : Prop :=
  i.Sound fun _ => True

/-- A block whose last instruction closes it. -/
def Closed {L : Type} (is : List (Instr L)) : Prop :=
  ∃ before i, is = before ++ [i] ∧ i.opcode = .close

/-- A block is closed if its last opcode closes it. -/
theorem closed_iff_getLast? {L : Type} {is : List (Instr L)} :
    Closed is ↔ is.getLast?.map Instr.opcode = some .close := by
  simp only [Closed, Option.map_eq_some_iff, List.getLast?_eq_some_iff]
  constructor
  · rintro ⟨before, i, rfl, hi⟩
    exact ⟨i, ⟨before, rfl⟩, hi⟩
  · rintro ⟨i, ⟨before, rfl⟩, hi⟩
    exact ⟨before, i, rfl, hi⟩

instance {L : Type} (is : List (Instr L)) : Decidable (Closed is) :=
  decidable_of_iff _ closed_iff_getLast?.symm

namespace TokenReader

/-- No more fields are read than there is room for. -/
theorem length_fieldsOf (reg : Registry) (e : Entry) (owner : Token) (room : Nat)
    (ts : List Token) {fs : List Field} {rest : List Token}
    (h : fieldsOf reg e owner room ts = (.ok fs, rest)) : fs.length ≤ room := by
  fun_induction fieldsOf reg e owner room ts generalizing fs rest with
  | case1 | case3 | case4 | case6 | case7 | case8 => cases h
  | case2 | case5 => cases h; exact Nat.zero_le _
  | case9 room t v r _ hr k w _ fs' rest' heq ih =>
    cases h
    have hl := ih heq
    rw [List.length_cons]
    omega

theorem sound_operand (reg : Registry) (e : Entry) (k : OperandKind) :
    (operand reg e k).Gives (Operand.Sound (fun _ => True) e.opcode k) := by
  cases k with
  | variant =>
    refine .bind fun t => .orFail _ fun kind h => ?_
    obtain ⟨-, hc⟩ := Option.filter_eq_some_iff.mp h
    exact List.contains_iff_mem.mp hc
  | fields =>
    refine .bind fun owner => .bind fun _ => fun ts fs rest h => ?_
    exact Nat.lt_succ_of_le (length_fieldsOf reg e owner maxFields ts h)
  | slot | int | flag | account | word | label | name | value =>
    exact .trivially fun _ => trivial

/-- All operands that are read are sound. -/
theorem sound_operands (reg : Registry) (e : Entry) (ps : List Param) :
    (operands reg e ps).Gives (Operands.Sound (fun _ => True) e.opcode ps) := by
  induction ps with
  | nil => exact .pure trivial
  | cons p ps ih =>
    exact (sound_operand reg e p.kind).bind_of fun a ha => ih.bind_of fun as has =>
      .pure ⟨ha, has⟩

/-- Every instruction that is read from tokens is sound. -/
theorem sound_instr (reg : Registry) (t : Token) :
    (instr reg t).Gives Instr.SoundOperands := by
  rw [instr]
  split
  · refine .orFail _ fun i h => ?_
    obtain ⟨l, -, rfl⟩ := Option.map_eq_some_iff.mp h
    cases l <;> exact ⟨trivial, trivial⟩
  · split
    · intro ts i rest h
      cases h
    · exact (sound_operands reg _ _).bind_of fun as has => .pure has

/-- The instructions of a block are sound, and a block that leaves tokens behind is closed. -/
theorem block_inv (reg : Registry) (ts : List Token) {is : List (Instr Token)}
    {rest : List Token} (h : block reg ts = (.ok is, rest)) :
    (∀ i ∈ is, i.SoundOperands) ∧ (Closed is ∨ rest = []) := by
  fun_induction block reg ts generalizing is rest with
  | case1 =>
    cases h
    exact ⟨by simp, .inr rfl⟩
  | case2 | case4 => cases h
  | case3 t r i rest' hi hc =>
    cases h
    refine ⟨fun j hj => ?_, .inl ⟨[], i, rfl, hc⟩⟩
    obtain rfl := List.mem_singleton.mp hj
    exact sound_instr reg t r j _ hi
  | case5 t r i rest' hi _ is' rest'' hb ih =>
    cases h
    obtain ⟨hs, hl⟩ := ih hb
    refine ⟨fun j hj => ?_, hl.imp_left ?_⟩
    · rcases List.mem_cons.mp hj with rfl | hj
      · exact sound_instr reg t r j _ hi
      · exact hs j hj
    · rintro ⟨before, c, rfl, hc⟩
      exact ⟨i :: before, c, rfl, hc⟩

end TokenReader

namespace Assembly

/-- So are those of the bodies. -/
theorem sound_bodiesOf (reg : Registry) (ts : List Token)
    {bs : List (Token × List (Instr Token))} (h : bodiesOf reg ts = .ok bs) :
    ∀ b ∈ bs, ∀ i ∈ b.2, i.SoundOperands := by
  fun_induction bodiesOf reg ts generalizing bs with
  | case1 =>
    cases h
    simp
  | case2 | case3 | case4 => cases h
  | case5 label r _ is rest hb bs' hbs ih =>
    cases h
    intro b hmem
    rcases List.mem_cons.mp hmem with rfl | hmem
    · exact (TokenReader.block_inv reg r hb).1
    · exact ih hbs b hmem

/-- An assembly that was read from tokens has sound instructions, and its main block is closed
unless it is all there is. -/
theorem ofTokens_inv {reg : Registry} {tokens : List Token} {a : Assembly}
    (h : ofTokens reg tokens = .ok a) :
    (∀ i ∈ a.instrs, i.SoundOperands) ∧ (Closed a.main ∨ a.bodies = []) := by
  unfold ofTokens at h
  split at h
  · cases h
  · next main rest hm =>
    obtain ⟨hs, hl⟩ := TokenReader.block_inv reg tokens hm
    cases hb : bodiesOf reg rest with
    | error e => rw [hb] at h; cases h
    | ok bs =>
      rw [hb] at h
      cases h
      refine ⟨fun i hi => ?_, hl.imp_right ?_⟩
      · rcases List.mem_append.mp hi with hi | hi
        · exact hs i hi
        · obtain ⟨b, hb', hi⟩ := List.mem_flatMap.mp hi
          exact sound_bodiesOf reg rest hb b hb' i hi
      · -- a main block that is not closed takes up all tokens
        rintro rfl
        rw [bodiesOf] at hb
        cases hb
        rfl

end Assembly

/-! ### Renamed instructions -/

section Renaming

variable {L M : Type}

theorem Operand.size_mapLabels (f : L → M) (k : OperandKind) (a : Operand L k) :
    Operand.size k (Operand.mapLabels f k a) = Operand.size k a := by
  cases k <;> rfl

theorem Operands.size_mapLabels (f : L → M) (ps : List Param) (as : Operands L ps) :
    Operands.size ps (Operands.mapLabels f ps as) = Operands.size ps as := by
  induction ps with
  | nil => rfl
  | cons p ps ih =>
    obtain ⟨a, as⟩ := as
    rw [Operands.mapLabels, Operands.size, Operand.size_mapLabels, ih]
    rfl

/-- New labels do not change the size of an instruction. -/
@[simp] theorem Instr.size_mapLabels (f : L → M) (i : Instr L) :
    (i.mapLabels f).size = i.size :=
  congrArg (1 + ·) (Operands.size_mapLabels f i.opcode.params i.operands)

theorem Instr.size_pos (i : Instr L) : 0 < i.size :=
  Nat.add_pos_left Nat.one_pos _

/-- Sound operands stay so if all new labels fit. -/
theorem Operands.sound_mapLabels {fits : M → Prop} {f : L → M} (hf : ∀ l, fits (f l))
    {op : Opcode} {ps : List Param} {as : Operands L ps}
    (hs : Operands.Sound (fun _ => True) op ps as) :
    Operands.Sound fits op ps (Operands.mapLabels f ps as) := by
  induction ps with
  | nil => trivial
  | cons p ps ih =>
    obtain ⟨a, as⟩ := as
    obtain ⟨field, k⟩ := p
    refine ⟨?_, ih hs.2⟩
    cases k with
    | variant | fields => exact hs.1
    | label => exact hf a
    | slot | int | flag | account | word | name | value => trivial

/-- Sound operands stay sound under targets that fit. -/
theorem Instr.sound_mapLabels {fits : M → Prop} {f : L → M} (hf : ∀ l, fits (f l)) {i : Instr L}
    (hs : i.Sound fun _ => True) : (i.mapLabels f).Sound fits :=
  Operands.sound_mapLabels hf hs

end Renaming

/-! ### Places of instructions -/

namespace Assembly

theorem sizeSum_append (is js : List (Instr Token)) :
    sizeSum (is ++ js) = sizeSum is + sizeSum js := by
  induction is with
  | nil => exact (Nat.zero_add _).symm
  | cons i is ih =>
    show i.size + sizeSum (is ++ js) = i.size + sizeSum is + sizeSum js
    rw [ih, Nat.add_assoc]

variable {a : Assembly}

/-- The bytes of some of the instructions, linked as those of the whole program. -/
def bytes (a : Assembly) (is : List (Instr Token)) : List UInt8 :=
  is.flatMap fun i => (i.mapLabels a.offsetOf).encode

/-- Instructions have as many bytes as their sizes say. -/
theorem length_bytes (is : List (Instr Token)) : (a.bytes is).length = sizeSum is := by
  induction is with
  | nil => rfl
  | cons i is ih =>
    show ((i.mapLabels a.offsetOf).encode ++ a.bytes is).length = i.size + sizeSum is
    rw [List.length_append, ih, Instr.length_encode, Instr.size_mapLabels]

theorem length_encode (a : Assembly) : a.encode.length = a.size :=
  length_bytes a.instrs

/-- The instructions `is` stand one after another in the layout, the first of them at `pc`. -/
def At (a : Assembly) (pc : Nat) (is : List (Instr Token)) : Prop :=
  ∃ before behind, a.instrs = before ++ is ++ behind ∧ sizeSum before = pc

namespace At

variable {pc : Nat} {i : Instr Token} {is js : List (Instr Token)}

/-- Behind an instruction stand those that follow it. -/
theorem tail (h : a.At pc (i :: is)) : a.At (pc + i.size) is := by
  obtain ⟨before, behind, ha, rfl⟩ := h
  refine ⟨before ++ [i], behind, by rw [ha]; simp, ?_⟩
  rw [sizeSum_append]
  rfl

/-- So they do behind several. -/
theorem behind (h : a.At pc (is ++ js)) : a.At (pc + sizeSum is) js := by
  obtain ⟨before, behind, ha, rfl⟩ := h
  exact ⟨before ++ is, behind, by rw [ha]; simp, sizeSum_append before is⟩

theorem le_size (h : a.At pc is) : pc + sizeSum is ≤ a.size := by
  obtain ⟨before, behind, ha, rfl⟩ := h
  rw [size, ha, sizeSum_append, sizeSum_append]
  exact Nat.le_add_right _ _

theorem lt_size (h : a.At pc (i :: is)) : pc < a.size := by
  have hl := h.le_size
  have hp := i.size_pos
  have hs : sizeSum (i :: is) = i.size + sizeSum is := rfl
  omega

/-- An instruction that stands in the code is one of the assembly. -/
theorem mem (h : a.At pc (i :: is)) : i ∈ a.instrs := by
  obtain ⟨before, behind, ha, -⟩ := h
  rw [ha]
  simp

/-- The bytes of an instruction stand in its place. -/
theorem stands (h : a.At pc (i :: is)) :
    Stands a.encode.toArray pc (i.mapLabels a.offsetOf).encode := by
  obtain ⟨before, behind, ha, rfl⟩ := h
  refine ⟨a.bytes before, a.bytes (is ++ behind), ?_, length_bytes before⟩
  show a.bytes a.instrs = _
  rw [ha]
  simp [bytes]

end At

/-- The main block stands at the start. -/
theorem at_main (a : Assembly) : a.At 0 a.main :=
  ⟨[], a.bodies.flatMap (·.2), rfl, rfl⟩

/-- Nothing stands at the end. -/
theorem at_size (a : Assembly) : a.At a.size [] :=
  ⟨a.instrs, [], by simp, rfl⟩

/-! ### Places of bodies -/

/-- The offsets of further bodies go on behind those of the first. -/
theorem offsetsFrom_append (base : Nat) (bs cs : List (Token × List (Instr Token))) :
    offsetsFrom base (bs ++ cs)
      = offsetsFrom base bs ++ offsetsFrom (base + sizeSum (bs.flatMap (·.2))) cs := by
  induction bs generalizing base with
  | nil => rfl
  | cons b bs ih =>
    obtain ⟨l, body⟩ := b
    rw [List.cons_append, offsetsFrom, ih, offsetsFrom, List.flatMap_cons, sizeSum_append,
      Nat.add_assoc]
    rfl

/-- A label without a body has no place. -/
theorem lookup_offsetsFrom_eq_none {l : Token} (base : Nat)
    {bs : List (Token × List (Instr Token))} (h : bs.lookup l = none) :
    (offsetsFrom base bs).lookup l = none := by
  induction bs generalizing base with
  | nil => rfl
  | cons b bs ih =>
    obtain ⟨k, body⟩ := b
    rw [List.lookup_cons] at h
    rw [offsetsFrom, List.lookup_cons]
    split at h
    · cases h
    · exact ih _ h

/-- A label stands for the sum of the sizes before its body, the first one that bears it. -/
theorem offsetOf_of_split {l : Token} {body : List (Instr Token)}
    {bs cs : List (Token × List (Instr Token))} (hb : a.bodies = bs ++ (l, body) :: cs)
    (hne : bs.lookup l = none) : a.offsetOf l = sizeSum (a.main ++ bs.flatMap (·.2)) := by
  rw [offsetOf, offsets, hb, offsetsFrom_append, List.lookup_append,
    lookup_offsetsFrom_eq_none _ hne, sizeSum_append]
  simp [offsetsFrom]

/-- A label stands for the place of the first instruction of its body. -/
theorem at_offsetOf {l : Token} {body : List (Instr Token)}
    (h : a.bodies.lookup l = some body) : a.At (a.offsetOf l) body := by
  obtain ⟨bs, cs, hb, hne⟩ := List.lookup_eq_some_iff.mp h
  refine ⟨a.main ++ bs.flatMap (·.2), cs.flatMap (·.2), ?_, ?_⟩
  · rw [instrs, hb]
    simp
  · rw [offsetOf_of_split hb (List.lookup_eq_none_iff.mpr hne)]

/-- Whatever stands for a label lies in the program, its end included. -/
theorem offsetOf_le_size (a : Assembly) (l : Token) : a.offsetOf l ≤ a.size := by
  cases h : a.bodies.lookup l with
  | some body => exact Nat.le_trans (Nat.le_add_right _ _) (at_offsetOf h).le_size
  | none =>
    rw [offsetOf, offsets, lookup_offsetsFrom_eq_none _ h]
    exact Nat.zero_le _

/-! ### Linking -/

/-- What an assembly that links has: sound instructions, a size at which every offset fits, and a
body for every branch target. -/
structure Linked (a : Assembly) (code : List UInt8) : Prop where
  code_eq : code = a.encode
  sound : ∀ i ∈ a.instrs, i.SoundOperands
  size_le : a.size ≤ maxSize
  resolved : ∀ i ∈ a.instrs, ∀ l ∈ i.labels, ∃ body, a.bodies.lookup l = some body

/-- Without a defect the code is not too large, and every branch has its body. -/
theorem defect?_eq_none (h : a.defect? = none) :
    a.size ≤ maxSize ∧ ∀ l ∈ a.targets, l ∈ a.labels := by
  unfold defect? at h
  split at h
  · cases h
  · split at h
    · cases h
    · next hs =>
      split at h
      · cases h
      · next hf =>
        refine ⟨Nat.le_of_not_lt hs, fun l hl => ?_⟩
        have hl := List.find?_eq_none.mp hf l hl
        simpa using hl

/-- An assembly of sound instructions that links is linked. -/
theorem linked_of_sound {code : List UInt8} (hs : ∀ i ∈ a.instrs, i.SoundOperands)
    (hl : a.link = .ok code) : a.Linked code := by
  unfold link at hl
  split at hl
  · cases hl
  · next hd =>
    cases hl
    obtain ⟨hsize, ht⟩ := defect?_eq_none hd
    refine ⟨rfl, hs, hsize, fun i hi l hl => ?_⟩
    have hm : l ∈ a.labels := ht l (List.mem_flatMap.mpr ⟨i, hi, hl⟩)
    obtain ⟨b, hb, rfl⟩ := List.mem_map.mp hm
    refine Option.isSome_iff_exists.mp (List.lookup_isSome_iff.mpr ⟨b, hb, ?_⟩)
    exact beq_self_eq_true b.1

/-- **Linking.** An assembly that was read from tokens and links is linked. -/
theorem linked_of_tokens {reg : Registry} {tokens : List Token} {code : List UInt8}
    (hp : ofTokens reg tokens = .ok a) (hl : a.link = .ok code) : a.Linked code :=
  linked_of_sound (ofTokens_inv hp).1 hl

namespace Linked

variable {code : List UInt8}

/-- Linked code is as long as its assembly says. -/
theorem length_code (h : a.Linked code) : code.length = a.size := by
  rw [h.code_eq, length_encode]

/-- Linked instructions are sound. -/
theorem sound_mapLabels (h : a.Linked code) {i : Instr Token} (hi : i ∈ a.instrs) :
    (i.mapLabels a.offsetOf).Sound IsOffset := by
  refine Instr.sound_mapLabels (fun l => ?_) (h.sound i hi)
  exact Nat.lt_succ_of_le (Nat.le_trans (a.offsetOf_le_size l) h.size_le)

end Linked

end Assembly

end Proviso
