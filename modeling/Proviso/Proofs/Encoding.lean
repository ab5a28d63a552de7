import Proviso.Bytecode

/-!
# Reading back what was written

The bytes of an instruction, wherever they stand in a program, are read as that instruction, and
the reader stops right behind them. Three things could break this: an offset that does not fit in
two bytes, a struct with more fields than one byte counts, and an operand that the check of the
reader refuses. `Instr.Sound` rules out the first two; the third is a fault of the instruction
itself, `Instr.defect?`, which the reader reports.

Main statement: `decodeAt_encode`.
-/

namespace Proviso

/-! ### Numbers and their bytes -/

/-- The last byte counts once, and those before it 256 times. -/
theorem natOfBytes_concat (bs : List UInt8) (b : UInt8) :
    natOfBytes (bs ++ [b]) = natOfBytes bs * 256 + b.toNat := by
  rw [natOfBytes, List.foldl_append]
  rfl

/-- A number below the bound of its width is the number that its bytes write. -/
theorem natOfBytes_bytesOfNat {width value : Nat} (h : value < Octets.count width) :
    natOfBytes (bytesOfNat width value) = value := by
  induction width generalizing value with
  | zero =>
    have hv : value = 0 := Nat.lt_one_iff.mp h
    subst hv
    rfl
  | succ width ih =>
    rw [Octets.count_succ] at h
    have hq : value / 256 < Octets.count width := Nat.div_lt_of_lt_mul (by omega)
    have hb : (UInt8.ofNat value).toNat = value % 256 := rfl
    rw [bytesOfNat, natOfBytes_concat, ih hq, hb]
    omega

/-- A number below the count is spelled by its octets. -/
theorem Octets.toNat_ofNat {n value : Nat} (h : value < Octets.count n) :
    (Octets.ofNat value : Octets n).toNat = value :=
  natOfBytes_bytesOfNat h

theorem UInt256.size_eq_count : UInt256.size = Octets.count 32 := by decide

@[simp] theorem UInt256.toNat_ofOctets (w : Octets 32) : (UInt256.ofOctets w).toNat = w.toNat :=
  rfl

/-- An integer is read back from its 32 bytes. -/
theorem UInt256.ofOctets_toOctets (v : UInt256) : UInt256.ofOctets v.toOctets = v := by
  apply UInt256.ext
  rw [toNat_ofOctets]
  exact Octets.toNat_ofNat (size_eq_count ▸ v.toNat_lt)

/-- No two opcodes have the same byte. -/
theorem Opcode.ofCode?_code (op : Opcode) : Opcode.ofCode? op.code = some op := by
  cases op with
  | compare c | connect c | compute c | set c | literal c | read c => cases c <;> rfl
  | _ => rfl

/-! ### Bytes in their place -/

/-- The bytes `bs` stand in the program from `pc` on. -/
def Stands (code : Array UInt8) (pc : Nat) (bs : List UInt8) : Prop :=
  ∃ before behind, code.toList = before ++ bs ++ behind ∧ before.length = pc

namespace Stands

variable {code : Array UInt8} {pc : Nat} {as bs : List UInt8}

/-- A beginning of what stands at an offset stands there too. -/
theorem left (h : Stands code pc (as ++ bs)) : Stands code pc as := by
  obtain ⟨before, behind, hc, hl⟩ := h
  exact ⟨before, bs ++ behind, by rw [hc]; simp, hl⟩

/-- What follows stands behind it. -/
theorem right (h : Stands code pc (as ++ bs)) : Stands code (pc + as.length) bs := by
  obtain ⟨before, behind, hc, hl⟩ := h
  exact ⟨before ++ as, behind, by rw [hc]; simp, by rw [List.length_append, hl]⟩

theorem head {b : UInt8} (h : Stands code pc (b :: bs)) : Stands code pc [b] :=
  @left code pc [b] bs h

theorem tail {b : UInt8} (h : Stands code pc (b :: bs)) : Stands code (pc + 1) bs :=
  @right code pc [b] bs h

/-- What stands in the code ends in it. -/
theorem le_size (h : Stands code pc bs) : pc + bs.length ≤ code.size := by
  obtain ⟨before, behind, hc, rfl⟩ := h
  rw [← Array.length_toList, hc]
  simp

/-- The bytes cut out of the code are those that stand there. -/
theorem extract_eq (h : Stands code pc bs) :
    (code.extract pc (pc + bs.length)).toList = bs := by
  obtain ⟨before, behind, hc, rfl⟩ := h
  rw [Array.toList_extract, hc, List.extract_eq_take_drop, List.append_assoc,
    List.drop_left' rfl, Nat.add_sub_cancel_left, List.take_left' rfl]

theorem lt_size {b : UInt8} (h : Stands code pc [b]) : pc < code.size :=
  h.le_size

theorem getElem_eq {b : UInt8} (h : Stands code pc [b]) (hs : pc < code.size) :
    code[pc] = b := by
  obtain ⟨before, behind, hc, rfl⟩ := h
  rw [← Array.getElem_toList]
  simp [hc]

end Stands

/-! ### Sound operands -/

/-- An operand that the opcode admits and that its bytes can hold: a type that the opcode has, a
branch target as `fits` says, and no more fields than a byte counts. -/
def Operand.Sound {L : Type} (fits : L → Prop) (op : Opcode) :
    (k : OperandKind) → Operand L k → Prop
  | .variant, k  => k ∈ op.variants
  | .label,   l  => fits l
  | .fields,  fs => fs.length < 256
  | .slot, _ | .int, _ | .flag, _ | .account, _ | .word, _ | .name, _ | .value, _ => True

/-- All operands of an opcode are sound. -/
def Operands.Sound {L : Type} (fits : L → Prop) (op : Opcode) :
    (ps : List Param) → Operands L ps → Prop
  | [],      _       => True
  | p :: ps, (a, as) => Operand.Sound fits op p.kind a ∧ Operands.Sound fits op ps as

/-- An instruction whose operands are sound. -/
def Instr.Sound {L : Type} (fits : L → Prop) (i : Instr L) : Prop :=
  Operands.Sound fits i.opcode i.opcode.params i.operands

/-- The offsets that two bytes can hold. -/
def IsOffset (n : Nat) : Prop :=
  n < Octets.count 2

/-- The first complaint about the operands, in their order. -/
def Operands.defect? (check : Reader.Check) (op : Opcode) :
    (ps : List Param) → Operands Nat ps → Option Fault
  | [],      _       => none
  | p :: ps, (a, as) => (check op p.kind a).or (defect? check op ps as)

/-- The first complaint about the operands of an instruction. -/
def Instr.defect? (check : Reader.Check) (i : Instr Nat) : Option Fault :=
  Operands.defect? check i.opcode i.opcode.params i.operands

/-! ### Sizes -/

theorem Field.length_encode (f : Field) : f.encode.length = Field.width := by
  simp [Field.encode, Field.width, f.slot.length_bytes, f.value.length_bytes]

theorem Field.length_flatMap_encode (fs : List Field) :
    (fs.flatMap Field.encode).length = fs.length * Field.width := by
  induction fs with
  | nil => simp
  | cons f fs ih =>
    rw [List.flatMap_cons, List.length_append, ih, f.length_encode, List.length_cons,
      Nat.succ_mul, Nat.add_comm]

/-- An operand has as many bytes as its size says. -/
theorem Operand.length_encode (k : OperandKind) (a : Operand Nat k) :
    (Operand.encode k a).length = Operand.size k a := by
  cases k with
  | variant | flag => rfl
  | slot | account | word | name => exact a.length_bytes
  | int => exact a.toOctets.length_bytes
  | label => exact length_bytesOfNat 2 a
  | value => simp [Operand.encode, Operand.size, a.2.length_bytes]
  | fields =>
    rw [Operand.encode, List.length_cons, Field.length_flatMap_encode, Nat.add_comm]
    rfl

theorem Operands.length_encode (ps : List Param) (as : Operands Nat ps) :
    (Operands.encode ps as).length = Operands.size ps as := by
  induction ps with
  | nil => rfl
  | cons p ps ih =>
    obtain ⟨a, as⟩ := as
    rw [Operands.encode, List.length_append, Operand.length_encode, ih]
    rfl

/-- An instruction takes as many bytes as its size says. -/
theorem Instr.length_encode (i : Instr Nat) : i.encode.length = i.size := by
  rw [Instr.encode, List.length_cons, Operands.length_encode, Nat.add_comm]
  rfl

/-! ### Readers on bytes in their place -/

namespace Reader

variable {code : Array UInt8} {pc : Nat}

/-- Octets that stand at an offset are read from it. -/
theorem octets_of_stands {n : Nat} (a : Octets n) (h : Stands code pc a.bytes) :
    octets code n pc = (.ok a, pc + n) := by
  have hl : pc + n ≤ code.size := by
    have hs := h.le_size
    rwa [a.length_bytes] at hs
  have he : (code.extract pc (pc + n)).toList = a.bytes := by
    have hx := h.extract_eq
    rwa [a.length_bytes] at hx
  rw [octets, dif_pos hl]
  exact congrArg (fun b => (Except.ok b, pc + n)) (Octets.ext he)

theorem byte_of_stands {b : UInt8} (h : Stands code pc [b]) :
    byte code pc = (.ok b, pc + 1) := by
  rw [byte, dif_pos h.lt_size, h.getElem_eq]

theorem kind_of_stands (op : Opcode) {k : ValueKind} (h : Stands code pc [k.code]) :
    kind code op pc = (.ok k, pc + 1) := by
  rw [kind, Act.bind_of_ok (byte_of_stands h), ValueKind.ofCode?_code]
  rfl

/-- A field that stands at an offset is read from it. -/
theorem field_of_stands (op : Opcode) {f : Field} (h : Stands code pc f.encode) :
    field code op pc = (.ok f, pc + Field.width) := by
  have hs : Stands code pc f.slot.bytes := h.left
  have hr : Stands code (pc + 4) (f.kind.code :: f.value.bytes) := by
    have hr := h.right
    rwa [f.slot.length_bytes] at hr
  rw [field, Act.bind_of_ok (octets_of_stands f.slot hs),
    Act.bind_of_ok (kind_of_stands op hr.head), Act.bind_of_ok (octets_of_stands f.value hr.tail)]
  rfl

/-- So are fields one after another, by induction on them. -/
theorem fieldList_of_stands (op : Opcode) {fs : List Field}
    (h : Stands code pc (fs.flatMap Field.encode)) :
    fieldList code op fs.length pc = (.ok fs, pc + fs.length * Field.width) := by
  induction fs generalizing pc with
  | nil => simp [fieldList]; rfl
  | cons f fs ih =>
    rw [List.flatMap_cons] at h
    have ht : Stands code (pc + Field.width) (fs.flatMap Field.encode) := by
      have ht := h.right
      rwa [f.length_encode] at ht
    -- a failure further on would hand over the fields before it, but there is none
    have hm : ((fieldList code op fs.length).mapError fun e =>
        (⟨e.fault, f :: e.fields⟩ : ReadFailure)) (pc + Field.width)
          = (.ok fs, pc + Field.width + fs.length * Field.width) := by
      rw [Act.mapError, ih ht]
    have hn : pc + Field.width + fs.length * Field.width
        = pc + (fs.length + 1) * Field.width := by
      rw [Nat.succ_mul, Nat.add_assoc, Nat.add_comm Field.width]
    rw [List.length_cons, fieldList, Act.bind_of_ok (field_of_stands op h.left),
      Act.bind_of_ok hm, hn]
    rfl

/-- The bytes of a sound operand are read as that operand. -/
theorem operand_of_stands (op : Opcode) (k : OperandKind) (a : Operand Nat k)
    (hs : Operand.Sound IsOffset op k a) (h : Stands code pc (Operand.encode k a)) :
    operand code op k pc = (.ok a, pc + Operand.size k a) := by
  cases k with
  | variant => exact kind_of_stands op h
  | slot => exact octets_of_stands a h
  | account => exact octets_of_stands a h
  | word => exact octets_of_stands a h
  | name => exact octets_of_stands a h
  | int =>
    rw [operand, Act.bind_of_ok (octets_of_stands a.toOctets h), UInt256.ofOctets_toOctets]
    rfl
  | flag =>
    rw [operand, Act.bind_of_ok (byte_of_stands h)]
    cases a <;> rfl
  | label =>
    rw [operand, Act.bind_of_ok (octets_of_stands (Octets.ofNat a) h), Octets.toNat_ofNat hs]
    rfl
  | value =>
    obtain ⟨kind, w⟩ := a
    rw [operand, Act.bind_of_ok (kind_of_stands op h.head),
      Act.bind_of_ok (octets_of_stands w h.tail)]
    rfl
  | fields =>
    -- the count is one byte, and a sound list is no longer than that can say
    have hc : (UInt8.ofNat a.length).toNat = a.length := Nat.mod_eq_of_lt hs
    rw [operand, Act.bind_of_ok (byte_of_stands h.head), hc, fieldList_of_stands op h.tail,
      Nat.add_assoc]
    rfl

variable {check : Check} {op : Opcode}

/-- Sound operands that pass the check are read back. -/
theorem operands_of_stands {ps : List Param} {as : Operands Nat ps}
    (hs : Operands.Sound IsOffset op ps as) (hd : Operands.defect? check op ps as = none)
    (h : Stands code pc (Operands.encode ps as)) :
    operands code check op ps pc = (.ok as, pc + Operands.size ps as) := by
  induction ps generalizing pc with
  | nil => rfl
  | cons p ps ih =>
    obtain ⟨a, as⟩ := as
    obtain ⟨hc, hd⟩ := Option.or_eq_none_iff.mp hd
    have ht : Stands code (pc + Operand.size p.kind a) (Operands.encode ps as) := by
      have ht := h.right
      rwa [Operand.length_encode] at ht
    rw [operands, Act.bind_of_ok (operand_of_stands op p.kind a hs.1 h.left), hc]
    dsimp only
    rw [Act.bind_of_ok (ih hs.2 hd ht), Nat.add_assoc]
    rfl

/-- Of sound operands, the first that does not pass the check is reported. -/
theorem operands_of_defect {ps : List Param} {as : Operands Nat ps} {f : Fault}
    (hs : Operands.Sound IsOffset op ps as) (hd : Operands.defect? check op ps as = some f)
    (h : Stands code pc (Operands.encode ps as)) :
    ∃ pc', operands code check op ps pc = (.error ⟨f, []⟩, pc') := by
  induction ps generalizing pc with
  | nil => cases hd
  | cons p ps ih =>
    obtain ⟨a, as⟩ := as
    have ht : Stands code (pc + Operand.size p.kind a) (Operands.encode ps as) := by
      have ht := h.right
      rwa [Operand.length_encode] at ht
    rw [operands, Act.bind_of_ok (operand_of_stands op p.kind a hs.1 h.left)]
    rcases Option.or_eq_some_iff.mp hd with hc | ⟨hc, hd⟩
    · rw [hc]
      exact ⟨_, rfl⟩
    · rw [hc]
      obtain ⟨pc', ho⟩ := ih hs.2 hd ht
      exact ⟨pc', Act.bind_of_error ho _⟩

end Reader

/-! ### Instructions -/

section Decoding

variable {check : Reader.Check} {code : Array UInt8} {pc : Nat} {i : Instr Nat}

/-- At the bytes of an instruction its opcode is read, and then operands of that opcode. -/
theorem decodeAt_of_stands (h : Stands code pc i.encode) :
    decodeAt check code pc
      = (Reader.operands code check i.opcode i.opcode.params >>= fun as =>
          pure ⟨i.opcode, as⟩) (pc + 1) := by
  rw [decodeAt, Act.bind_of_ok (Reader.byte_of_stands h.head), Reader.instrOf,
    Opcode.ofCode?_code]

/-- **Reading back.** Where the bytes of a sound instruction stand that passes the check, that
instruction is read, and the reader stops behind it. -/
theorem decodeAt_encode (hs : i.Sound IsOffset) (hd : i.defect? check = none)
    (h : Stands code pc i.encode) : decodeAt check code pc = (.ok i, pc + i.size) := by
  rw [decodeAt_of_stands h, Act.bind_of_ok (Reader.operands_of_stands hs hd h.tail),
    Nat.add_assoc]
  rfl

/-- A sound instruction that does not pass the check is refused with its defect. -/
theorem decodeAt_of_defect {f : Fault} (hs : i.Sound IsOffset) (hd : i.defect? check = some f)
    (h : Stands code pc i.encode) : ∃ pc', decodeAt check code pc = (.error ⟨f, []⟩, pc') := by
  obtain ⟨pc', ho⟩ := Reader.operands_of_defect hs hd h.tail
  exact ⟨pc', by rw [decodeAt_of_stands h, Act.bind_of_error ho]⟩

end Decoding

end Proviso
