import Proviso.Listing
import Proviso.Proofs.Layout
import Proviso.Source.Compile

/-!
# Listings of linked programs

The width of an operand is described four times: by the table of operand kinds, by the size that
linking adds up, by the bytes that are written, and by the reader that takes them apart again. On
a linked program the four agree. Its listing has one line for each instruction, in the order of
the layout; the line gives the sum of the sizes before the instruction, its mnemonic, and its
operands, where a label is shown as the place of the first byte of its body.

Main statement: `Assembly.listing_of_link`.
-/

namespace Proviso

/-! ### Widths by operand kind -/

section Width

variable {L : Type}

/-- The struct fields that an operand holds. -/
def Operand.fields : (k : OperandKind) → Operand L k → List Field
  | .fields, fs => fs
  | .variant, _ | .slot, _ | .int, _ | .flag, _ | .account, _ | .word, _ | .label, _ | .name, _
  | .value, _ => []

/-- Bytes of an operand as the table of kinds has them; struct fields take a count and 37 bytes
for each of them. -/
def Operand.width (k : OperandKind) (a : Operand L k) : Nat :=
  k.width?.getD (1 + 37 * (Operand.fields k a).length)

/-- The number of bytes that the operands take. -/
def Operands.width : (ps : List Param) → Operands L ps → Nat
  | [],      _       => 0
  | p :: ps, (a, as) => Operand.width p.kind a + Operands.width ps as

/-- An operand takes as many bytes as are written. -/
theorem Operand.size_eq_width (k : OperandKind) (a : Operand L k) :
    Operand.size k a = Operand.width k a := by
  cases k with
  | fields => exact congrArg (1 + ·) (Nat.mul_comm _ _)
  | variant | slot | int | flag | account | word | label | name | value => rfl

theorem Operands.size_eq_width (ps : List Param) (as : Operands L ps) :
    Operands.size ps as = Operands.width ps as := by
  induction ps with
  | nil => rfl
  | cons p ps ih =>
    obtain ⟨a, as⟩ := as
    rw [Operands.size, Operands.width, Operand.size_eq_width, ih]

/-- An instruction takes one byte and the widths of its operands. -/
theorem Instr.size_eq_width (i : Instr L) :
    i.size = 1 + Operands.width i.opcode.params i.operands :=
  congrArg (1 + ·) (Operands.size_eq_width i.opcode.params i.operands)

end Width

/-! ### Lines of instructions whose labels have places -/

section Lines

variable {L : Type}

/-- What a listing shows of an operand, if each label stands for a place. -/
def Operand.words (place : L → Nat) : (k : OperandKind) → Operand L k → List String
  | .variant, k      => [k.name]
  | .slot,    s      => [s.toHex]
  | .int,     v      => [v.toDecimal]
  | .flag,    b      => [boolText b]
  | .account, a      => [a.toHex]
  | .word,    w      => [w.toHex]
  | .label,   l      => ["@" ++ Nat.repr (place l)]
  | .name,    w      => [textOrHex w]
  | .value,   (k, w) => [k.name ++ ":" ++ renderValue k w]
  | .fields,  fs     =>
      Nat.repr fs.length ::
        fs.map fun f => f.slot.toHex ++ "=" ++ f.kind.name ++ ":" ++ renderValue f.kind f.value

/-- The words by which a listing shows the operands. -/
def Operands.words (place : L → Nat) : (ps : List Param) → Operands L ps → List String
  | [],      _       => []
  | p :: ps, (a, as) => Operand.words place p.kind a ++ Operands.words place ps as

/-- The line of an instruction: its offset, its mnemonic, and its operands with a blank in front
of each word. -/
def Instr.line (place : L → Nat) (offset : Nat) (i : Instr L) : String :=
  zeroPadded 4 offset ++ ": " ++ i.opcode.mnemonic
    ++ String.join ((Operands.words place i.opcode.params i.operands).map (" " ++ ·))

theorem Field.render_eq (f : Field) :
    f.render
      = " " ++ (f.slot.toHex ++ "=" ++ f.kind.name ++ ":" ++ renderValue f.kind f.value) := by
  simp only [Field.render, renderTagged, String.append_assoc]

/-- A listing shows an operand by its words, each behind a blank. -/
theorem Operand.render_mapLabels (place : L → Nat) (k : OperandKind) (a : Operand L k) :
    Operand.render k (Operand.mapLabels place k a)
      = String.join ((Operand.words place k a).map (" " ++ ·)) := by
  cases k with
  | fields =>
    simp [Operand.render, Operand.mapLabels, Operand.words, funext Field.render_eq,
      Function.comp_def]
  | value =>
    obtain ⟨kind, w⟩ := a
    simp [Operand.render, Operand.mapLabels, Operand.words, renderTagged]
  | label =>
    simp [Operand.render, Operand.mapLabels, Operand.words, ← String.append_assoc]
  | variant | slot | int | flag | account | word | name =>
    simp [Operand.render, Operand.mapLabels, Operand.words]

/-- So it does the operands of an instruction. -/
theorem Operands.render_mapLabels (place : L → Nat) (ps : List Param) (as : Operands L ps) :
    Operands.render ps (Operands.mapLabels place ps as)
      = String.join ((Operands.words place ps as).map (" " ++ ·)) := by
  induction ps with
  | nil => rfl
  | cons p ps ih =>
    obtain ⟨a, as⟩ := as
    rw [Operands.mapLabels, Operands.render, Operand.render_mapLabels, ih, Operands.words,
      List.map_append, String.join_append]

/-- An instruction is rendered with the places of its labels. -/
theorem Instr.render_mapLabels (place : L → Nat) (offset : Nat) (i : Instr L) :
    (i.mapLabels place).render offset = i.line place offset :=
  congrArg (zeroPadded 4 offset ++ ": " ++ i.opcode.mnemonic ++ ·)
    (Operands.render_mapLabels place i.opcode.params i.operands)

end Lines

/-- A listing finds fault with no operand. -/
theorem Operands.defect?_anyOperand (op : Opcode) (ps : List Param) (as : Operands Nat ps) :
    Operands.defect? Reader.anyOperand op ps as = none := by
  induction ps with
  | nil => rfl
  | cons p ps ih => exact ih as.2

namespace Assembly

variable {a : Assembly} {code : List UInt8}

/-! ### Labels of a program that links -/

/-- No label is repeated if they are all different, and different from those before. -/
theorem firstRepeated?_eq_none_iff {seen ls : List Token} :
    firstRepeated? seen ls = none ↔ ls.Nodup ∧ ∀ l ∈ ls, l ∉ seen := by
  induction ls generalizing seen with
  | nil => simp [firstRepeated?]
  | cons l ls ih =>
    rw [firstRepeated?]
    by_cases hs : l ∈ seen
    · simp [hs]
    · have hc : ¬ seen.contains l = true := by simpa using hs
      rw [if_neg hc, ih, List.nodup_cons, List.forall_mem_cons]
      simp only [List.mem_cons, not_or]
      constructor
      · rintro ⟨hn, hd⟩
        exact ⟨⟨fun hm => (hd l hm).1 rfl, hn⟩, hs, fun k hk => (hd k hk).2⟩
      · rintro ⟨⟨hl, hn⟩, -, hd⟩
        exact ⟨hn, fun k hk => ⟨fun he => hl (he ▸ hk), hd k hk⟩⟩

/-- Nothing keeps an assembly from being linked if its labels are distinct, every offset fits, and
branches lead to bodies and to all of them. -/
theorem defect?_eq_none_iff :
    a.defect? = none ↔ a.labels.Nodup ∧ a.size ≤ maxSize ∧ (∀ l ∈ a.targets, l ∈ a.labels) ∧
      ∀ l ∈ a.labels, l ∈ a.targets := by
  have hrep : firstRepeated? [] a.labels = none ↔ a.labels.Nodup := by
    simp [firstRepeated?_eq_none_iff]
  have hundef : (a.targets.find? fun l => !a.labels.contains l) = none ↔
      ∀ l ∈ a.targets, l ∈ a.labels := by
    simp [List.find?_eq_none]
  have hunref : ((a.labels.find? fun l => !a.targets.contains l).map
      CompileError.unreferencedLabel) = none ↔ ∀ l ∈ a.labels, l ∈ a.targets := by
    simp [List.find?_eq_none]
  rw [← hrep, ← hundef, ← hunref, defect?]
  cases firstRepeated? [] a.labels with
  | some l => simp
  | none =>
    by_cases hs : maxSize < a.size
    · simp [hs, Nat.not_le.mpr hs]
    · cases a.targets.find? fun l => !a.labels.contains l with
      | some l => simp [hs]
      | none => simp [hs, Nat.le_of_not_lt hs]

theorem defect?_of_link (h : a.link = .ok code) : a.defect? = none := by
  rw [link] at h
  split at h
  · cases h
  · assumption

/-- An assembly links if nothing keeps it from that. -/
theorem exists_link_iff : (∃ code, a.link = .ok code) ↔ a.defect? = none := by
  rw [link]
  cases a.defect? with
  | none => simp
  | some e => simp

theorem nodup_labels (h : a.defect? = none) : a.labels.Nodup :=
  (defect?_eq_none_iff.mp h).1

/-- Where labels are distinct, each stands for the place of the one body that bears it. -/
theorem offsetOf_eq_of_nodup (hn : a.labels.Nodup) {label : Token} {body : List (Instr Token)}
    {before behind : List (Token × List (Instr Token))}
    (hb : a.bodies = before ++ (label, body) :: behind) :
    a.offsetOf label = sizeSum (a.main ++ before.flatMap (·.2)) := by
  refine offsetOf_of_split hb (List.lookup_eq_none_iff.mpr fun b hmem => ?_)
  rw [labels, hb, List.map_append, List.nodup_append] at hn
  have hne := hn.2.2 b.1 (List.mem_map_of_mem hmem) label (by simp)
  simpa using hne.symm

/-! ### The listing -/

/-- In its place, an instruction of a linked program is read for a listing. -/
theorem Linked.decodeAt_anyOperand (hl : a.Linked code) {before behind : List (Instr Token)}
    {i : Instr Token} (h : a.instrs = before ++ i :: behind) :
    decodeAt Reader.anyOperand code.toArray (sizeSum before)
      = (.ok (i.mapLabels a.offsetOf), sizeSum before + i.size) := by
  have hat : a.At (sizeSum before) (i :: behind) := ⟨before, [], by rw [h]; simp, rfl⟩
  have hs : Stands code.toArray (sizeSum before) (i.mapLabels a.offsetOf).encode := by
    rw [hl.code_eq]
    exact hat.stands
  rw [decodeAt_encode (hl.sound_mapLabels hat.mem) (Operands.defect?_anyOperand _ _ _) hs,
    Instr.size_mapLabels]

/-- From the place of an instruction on, the listing has a line for it and for each behind it. -/
theorem Linked.listingFrom_eq (hl : a.Linked code) (before : List (Instr Token))
    {is : List (Instr Token)} (h : a.instrs = before ++ is) :
    listingFrom code.toArray (sizeSum before)
      = .ok (is.mapIdx fun k i => i.line a.offsetOf (sizeSum (before ++ is.take k))) := by
  induction is generalizing before with
  | nil =>
    have hend : ¬ sizeSum before < code.toArray.size := by
      rw [List.size_toArray, hl.length_code, size, h, List.append_nil]
      exact Nat.lt_irrefl _
    rw [listingFrom, dif_neg hend]
    rfl
  | cons i is ih =>
    have hd := hl.decodeAt_anyOperand h
    have hlt : sizeSum before < code.toArray.size := by
      have hat : a.At (sizeSum before) (i :: is) := ⟨before, [], by rw [h]; simp, rfl⟩
      rw [List.size_toArray, hl.length_code]
      exact hat.lt_size
    -- the reader stops where the instructions behind this one begin
    have hnext : sizeSum before + i.size = sizeSum (before ++ [i]) := by
      rw [sizeSum_append]
      rfl
    have hrest := ih (before ++ [i]) (by rw [h]; simp)
    rw [listingFrom, dif_pos hlt]
    split
    · next he => rw [hd] at he; cases he
    · next he =>
      rw [hd] at he
      cases he
      rw [hnext, hrest, List.mapIdx_cons, Instr.render_mapLabels]
      simp

/-- **Writing, reading and sizes agree.** A program that was read from tokens and links has as
many bytes as the sizes of its instructions add up to, at most 65535; each size is one more than
the widths of the operands. Every label that an instruction names is borne by a body. Taking a
label for the place of the first byte of its body, each instruction is read back where the sizes
before it add up to, and the listing has exactly its line for each instruction, in order. -/
theorem listing_of_link {reg : Registry} {tokens : List Token}
    (hp : ofTokens reg tokens = .ok a) (hl : a.link = .ok code) :
    code.length = sizeSum a.instrs ∧ code.length ≤ 65535 ∧
    (∀ i ∈ a.instrs, i.size = 1 + Operands.width i.opcode.params i.operands) ∧
    (∀ i ∈ a.instrs, ∀ label ∈ i.labels, ∃ body, (label, body) ∈ a.bodies) ∧
    ∃ place : Token → Nat,
      (∀ before label body behind, a.bodies = before ++ (label, body) :: behind →
        place label = sizeSum (a.main ++ before.flatMap (·.2))) ∧
      (∀ before i behind, a.instrs = before ++ i :: behind →
        decodeAt Reader.anyOperand code.toArray (sizeSum before)
          = (.ok (i.mapLabels place), sizeSum before + i.size)) ∧
      listing code.toArray
        = .ok (a.instrs.mapIdx fun k i => i.line place (sizeSum (a.instrs.take k))) := by
  have hlinked := linked_of_tokens hp hl
  have hn := nodup_labels (defect?_of_link hl)
  refine ⟨hlinked.length_code, hlinked.length_code ▸ hlinked.size_le,
    fun i _ => i.size_eq_width, fun i hi label hlabel => ?_, a.offsetOf,
    fun before label body behind => offsetOf_eq_of_nodup hn,
    fun before i behind => hlinked.decodeAt_anyOperand, hlinked.listingFrom_eq [] rfl⟩
  obtain ⟨body, hb⟩ := hlinked.resolved i hi label hlabel
  obtain ⟨before, behind, hsplit, -⟩ := List.lookup_eq_some_iff.mp hb
  exact ⟨body, by simp [hsplit]⟩

/-- A branch over a body so long that the offset of the next one takes two bytes. -/
theorem listing_of_far_branch :
    ∃ (a : Assembly) (code : List UInt8) (place : Token → Nat),
      ofTokens .standard (["bool", "true", "ifelse", "yes", "no", "end", "yes"]
        ++ List.replicate 8 "7" ++ ["end", "no", "end"]) = .ok a ∧
      a.link = .ok code ∧
      listing code.toArray
        = .ok (a.instrs.mapIdx fun k i => i.line place (sizeSum (a.instrs.take k))) ∧
      (a.instrs.mapIdx fun k i => i.line place (sizeSum (a.instrs.take k)))[1]?
        = some "0002: ifelse @8 @273" := by
  have hline : ((assemble (["bool", "true", "ifelse", "yes", "no", "end", "yes"]
      ++ List.replicate 8 "7" ++ ["end", "no", "end"])).toOption.bind fun code =>
        (listing code.toArray).toOption.bind (·[1]?)) = some "0002: ifelse @8 @273" := by
    decide +kernel
  cases ha : assemble (["bool", "true", "ifelse", "yes", "no", "end", "yes"]
      ++ List.replicate 8 "7" ++ ["end", "no", "end"]) with
  | error e =>
    rw [ha] at hline
    cases hline
  | ok code =>
    obtain ⟨a, hp, hl⟩ := assemble_eq_ok ha
    obtain ⟨-, -, -, -, place, -, -, hlist⟩ := listing_of_link hp hl
    rw [ha, Except.toOption, Option.bind_some, hlist] at hline
    exact ⟨a, code, place, hp, hl, hlist, hline⟩

end Assembly

end Proviso
