import Proviso.Proofs.Records

/-!
# Sums over one field

A sum over one field of an array of structs decodes the names in the array and computes the slots of
their fields again. So it adds up what the field of each struct was given last
(`Machine.sums_last_given`), for every sequence of struct instructions and pushes in front of it.
-/

namespace Proviso

/-! ### Sums of values -/

/-- What counts as an integer in a sum: an integer, or nothing. -/
def IsIntegral (g : Option Assignment) : Prop :=
  ∀ a ∈ g, a.kind = .uint256

/-- **The sum of a field.** The values are added up one after another, to their exact sum, unless a
value of another kind or a sum out of range comes first. -/
inductive Totals (gs : List (Option Assignment)) : Except Fault Cell → Prop where
  | exact {total : UInt256} (integral : ∀ g ∈ gs, IsIntegral g)
      (sum : total.toNat = totalOfWords (gs.map givenWord)) : Totals gs (.ok (.integer total))
  | mismatch {before behind : List (Option Assignment)} {a : Assignment}
      (split : gs = before ++ some a :: behind) (integral : ∀ g ∈ before, IsIntegral g)
      (fits : totalOfWords (before.map givenWord) < UInt256.size) (other : a.kind ≠ .uint256) :
      Totals gs (.error (.typeMismatch Opcode.fieldSum.mnemonic ValueKind.uint256.name a.kind.name))
  | overflow {before behind : List (Option Assignment)} {g : Option Assignment}
      (split : gs = before ++ g :: behind) (integral : ∀ h ∈ before ++ [g], IsIntegral h)
      (fits : totalOfWords (before.map givenWord) < UInt256.size)
      (exceeds : UInt256.size ≤ totalOfWords ((before ++ [g]).map givenWord)) :
      Totals gs (.error (.overflow Opcode.fieldSum.mnemonic))

/-- Totals add up. -/
theorem totalOfWords_append (ws vs : List Word) :
    totalOfWords (ws ++ vs) = totalOfWords ws + totalOfWords vs := by
  induction ws with
  | nil => exact (Nat.zero_add _).symm
  | cons w ws ih => rw [List.cons_append, totalOfWords, ih, totalOfWords, Nat.add_assoc]

/-- Integers whose sum is in range are added up to it. -/
theorem Totals.eq_exact {gs : List (Option Assignment)} {result : Except Fault Cell}
    (h : Totals gs result) (hint : ∀ g ∈ gs, IsIntegral g) {total : UInt256}
    (hsum : total.toNat = totalOfWords (gs.map givenWord)) : result = .ok (.integer total) := by
  cases h with
  | exact _ sum => rw [UInt256.ext (sum.trans hsum.symm)]
  | mismatch split _ _ other =>
    subst split
    exact absurd (hint _ (List.mem_append_right _ List.mem_cons_self) _ rfl) other
  | @overflow before behind g split _ _ exceeds =>
    subst split
    have hlt := total.toNat_lt
    have hcons : before ++ g :: behind = before ++ [g] ++ behind := by simp
    rw [hsum, hcons, List.map_append, totalOfWords_append] at hlt
    omega

/-- The term that a value adds to a sum. -/
def givenTerm (g : Option Assignment) : Except Fault UInt256 :=
  match kindOfWord? (givenTag g) with
  | none | some .uint256 => .ok (givenWord g).toUInt256
  | some k => .error (.typeMismatch Opcode.fieldSum.mnemonic ValueKind.uint256.name k.name)

/-- A field that is missing counts zero, and an integer as itself. -/
theorem givenTerm_of_isIntegral {g : Option Assignment} (h : IsIntegral g) :
    givenTerm g = .ok (givenWord g).toUInt256 := by
  cases g with
  | none => rfl
  | some a =>
    have hkind : kindOfWord? (givenTag (some a)) = some .uint256 := by
      rw [← h a rfl]
      exact ValueKind.ofCode?_code a.kind
    rw [givenTerm, hkind]

/-- A field of another kind cannot be summed. -/
theorem givenTerm_of_ne {a : Assignment} (h : a.kind ≠ .uint256) :
    givenTerm (some a)
      = .error (.typeMismatch Opcode.fieldSum.mnemonic ValueKind.uint256.name a.kind.name) := by
  have hkind : kindOfWord? (givenTag (some a)) = some a.kind := ValueKind.ofCode?_code a.kind
  rw [givenTerm, hkind]
  cases hk : a.kind with
  | uint256 => exact absurd hk h
  | bool | address | bytes32 | string | struct => rfl

/-- Terms that are added one after another have such a sum. -/
theorem totals_totalFrom {term : Nat → Except Fault UInt256} {before gs : List (Option Assignment)}
    {start : Nat} {t : UInt256} (hterm : ∀ i g, gs[i]? = some g → term (start + i) = givenTerm g)
    (hbefore : ∀ g ∈ before, IsIntegral g) (ht : t.toNat = totalOfWords (before.map givenWord)) :
    Totals (before ++ gs)
      ((totalFrom (.overflow Opcode.fieldSum.mnemonic) term gs.length start t).map .integer) := by
  induction gs generalizing before start t with
  | nil =>
    rw [List.append_nil]
    exact .exact hbefore ht
  | cons g gs ih =>
    have hfits : totalOfWords (before.map givenWord) < UInt256.size := ht ▸ t.toNat_lt
    have hg : term start = givenTerm g := hterm 0 g rfl
    rw [List.length_cons, totalFrom, hg]
    by_cases hint : IsIntegral g
    · have hall : ∀ h ∈ before ++ [g], IsIntegral h :=
        List.forall_mem_append.mpr ⟨hbefore, List.forall_mem_singleton.mpr hint⟩
      have hsum : totalOfWords ((before ++ [g]).map givenWord)
          = t.toNat + (givenWord g).toNat := by
        rw [List.map_append, totalOfWords_append, ht]
        rfl
      rw [givenTerm_of_isIntegral hint]
      dsimp only
      cases ht' : t.add? (givenWord g).toUInt256 with
      | some t' =>
        have hnext : t'.toNat = totalOfWords ((before ++ [g]).map givenWord) := by
          rw [hsum]
          exact UInt256.toNat_of_add? ht'
        have hrest : ∀ i h, gs[i]? = some h → term (start + 1 + i) = givenTerm h := by
          intro i h hi
          rw [Nat.add_assoc, Nat.add_comm 1]
          exact hterm (i + 1) h hi
        have htotals := ih hrest hall hnext
        rwa [List.append_assoc] at htotals
      | none =>
        refine .overflow rfl hall hfits ?_
        rw [hsum]
        exact UInt256.size_le_of_add? ht'
    · -- only a value that was given can be of another kind
      cases g with
      | none => exact absurd (fun _ h => by cases h) hint
      | some a =>
        have hother : a.kind ≠ .uint256 := fun h => hint fun _ ha => Option.some.inj ha ▸ h
        rw [givenTerm_of_ne hother]
        exact .mismatch rfl hbefore hfits hother

/-! ### Sums in storage -/

section Sum

variable {σ : Type} [Store σ] {array field : String} {uses : RecordPlace → Prop} {r : Records}
  {w : Workspace σ}

/-- The name in an element leads back to the slots of the struct's field. -/
theorem Effect.fieldTerm_of_shows (h : w.Shows array uses r.contents) {i : Nat} {n : Name}
    (hn : r.elements[i]? = some n) (helement : uses (.element i))
    (hvalue : uses (.value n.text field)) (hkind : uses (.kind n.text field)) :
    fieldTerm .fieldSum w array field i = givenTerm (lastGiven r.given n.text field) := by
  have htext : (w.locals (.element array i)).toText? = some n.text := by
    have hword : r.contents (.element i) = n.word := by rw [Records.contents, hn]; rfl
    rw [← n.toText?_word, ← hword]
    exact congrArg Word.toText? (h _ helement)
  have hw : w.locals (.field n.text field) = givenWord (lastGiven r.given n.text field) :=
    h _ hvalue
  have hk : w.locals (Slot.kindTag (.field n.text field))
      = givenTag (lastGiven r.given n.text field) := h _ hkind
  rw [Workspace.locals] at htext hw hk
  rw [fieldTerm, htext]
  dsimp only
  rw [hw, hk]
  rfl

/-- A sum over one field adds up what it was given last. -/
theorem Effect.fieldSum_of_shows (h : w.Shows array uses r.contents) {els : List Name}
    (hels : r.elements? = some els) (hlen : els.length < UInt64.size) (hheader : uses .header)
    (helement : ∀ i < els.length, uses (.element i))
    (hfield : ∀ n ∈ els, uses (.value n.text field) ∧ uses (.kind n.text field)) :
    ∃ result, Totals (els.map fun n => lastGiven r.given n.text field) result ∧
      fieldSum .fieldSum array field w = pushResult result w := by
  have helements : r.elements = els := by rw [Records.elements, hels]; rfl
  have hholds : w.Holds array (some ⟨.struct, els.map Name.word⟩) := by
    have hh := h.holds hheader (helements ▸ helement)
    rwa [hels] at hh
  have hterm : ∀ i g, (els.map fun n => lastGiven r.given n.text field)[i]? = some g →
      fieldTerm .fieldSum w array field (0 + i) = givenTerm g := by
    intro i g hg
    rw [List.getElem?_map] at hg
    obtain ⟨n, hn, rfl⟩ := Option.map_eq_some_iff.mp hg
    obtain ⟨hv, hk⟩ := hfield n (List.mem_of_getElem? hn)
    rw [Nat.zero_add]
    exact fieldTerm_of_shows h (helements ▸ hn)
      (helement i (List.getElem?_eq_some_iff.mp hn).1) hv hk
  have htotals := totals_totalFrom hterm (List.forall_mem_nil _) (t := .zero) rfl
  rw [List.length_map] at htotals
  refine ⟨_, htotals, ?_⟩
  have hcount : (UInt64.ofNat (els.map Name.word).length).toNat = els.length := by
    rw [List.length_map]
    exact UInt64.toNat_ofNat_of_lt hlen
  rw [fieldSum, Act.bind_of_ok (ArrayOp.header_of_some _ hholds)]
  dsimp only
  rw [hcount]
  rfl

end Sum

/-! ### Sums in a program -/

/-- What the instructions and the sum have to do with: the header, the elements that are pushed, the
fields that are given a value, and the field of every struct in the array. -/
def RecordPlace.Involved (ops : List RecordOp) (field : Token) : RecordPlace → Prop
  | .header                          => True
  | .element i                       => i < (ops.flatMap RecordOp.appended).length
  | .value owner key | .kind owner key =>
      (∃ a ∈ ops.flatMap RecordOp.assignments, a.owner = owner ∧ a.key = key) ∨
        (key = field ∧ ∃ n ∈ ops.flatMap RecordOp.appended, n.text = owner)

/-- The instruction that sums a field. -/
def fieldSumInstr (array : ArrayName) (field : Name) : Instr Token :=
  ⟨.fieldSum, (array.word, field.word, ())⟩

section Programs

open RecordOp

variable {array : ArrayName} {field : Name}

open TokenReader in
/-- A sum over a field is read as its instruction. -/
theorem reads_fieldSum {arrayToken : Token} (h : Word.ofText? arrayToken = some array.word)
    (field : Name) :
    Reads .standard ["sumThroughStructs", arrayToken, field.text] [fieldSumInstr array field] :=
  Reads.of_operands .fieldSum
    (fun _ => operands_cons (operand_name h _ _)
      (operands_cons (operand_name field.ofText?_text _ _) rfl))
    (by rintro ⟨⟩)

variable {σ : Type} [Store σ] [LawfulStore σ] {a : Assembly} {code : List UInt8}

omit [LawfulStore σ] in
/-- The step at a sum pushes its result. -/
theorem Machine.step_of_fieldSum (hl : a.Linked code) (rest : List (Instr Token)) {m : Machine σ}
    (hc : m.program.code = code.toArray)
    (hat : a.At m.program.pc (fieldSumInstr array field :: rest)) (hfield : field.text ≠ "")
    {result : Except Fault Cell}
    (hsum : Effect.fieldSum .fieldSum array.text field.text m.work
      = Effect.pushResult result m.work) :
    (m.step.1, m.step.2.work) = Effect.pushResult result m.work := by
  have hname : Effect.name .fieldSum field.word m.work = (.ok field.text, m.work) :=
    ArrayName.name_apply ⟨field.text, field.word, Name.nameText?_word hfield⟩ _ _
  have hperform : (fieldSumInstr array field).perform m.work
      = (do Effect.fieldSum .fieldSum array.text field.text; return Control.next) m.work :=
    (Act.bind_of_ok (array.name_apply _ _) _).trans (Act.bind_of_ok hname _)
  rcases hpush : Effect.pushResult result m.work with ⟨f | ⟨⟩, w⟩
  · rw [Act.bind_of_error (hsum.trans hpush)] at hperform
    obtain ⟨m', hstep, hwork⟩ := step_of_perform_fault hl hc hat hperform
    rw [hstep, hwork]
  · rw [Act.bind_of_ok (hsum.trans hpush)] at hperform
    rw [step_of_perform_next hl hc hat hperform]

/-- All places that the operations write to are involved. -/
theorem covers_involved (ops : List RecordOp) (field : Token) :
    Covers (RecordPlace.Involved ops field) .none ops where
  header := trivial
  element _ hi := Nat.lt_of_lt_of_eq hi (Nat.zero_add _)
  field a ha := ⟨.inl ⟨a, ha, rfl, rfl⟩, .inl ⟨a, ha, rfl, rfl⟩⟩

/-- Where nothing is stored, the operations leave what they have given and pushed. -/
theorem performAll_from_zero {ops : List RecordOp} (hdeclares : Declares false ops)
    (hlen : (ops.flatMap appended).length < UInt64.size) {w : Workspace σ}
    (hapart : RecordPlace.Apart array.text (RecordPlace.Involved ops field.text))
    (hzero : ∀ p, RecordPlace.Involved ops field.text p → w.locals (p.slot array.text) = .zero) :
    ∃ s, Effect.performAll (ops.flatMap (instrs array.word)) w = (.ok (), { w with store := s }) ∧
      Workspace.Shows { w with store := s } array.text (RecordPlace.Involved ops field.text)
        (Records.contents ⟨some (ops.flatMap appended), ops.flatMap assignments⟩) := by
  have hw : w.Shows array.text (RecordPlace.Involved ops field.text) Records.none.contents := by
    intro p hp
    rw [hzero p hp]
    cases p <;> rfl
  rw [← foldl_act_none hdeclares]
  refine performAll_instrs hw hapart (covers_involved ops field.text) hdeclares ?_
  rwa [← Nat.zero_add (List.length _)] at hlen

/-- **Sums add up what was given last.** Behind struct instructions, pushes of their names and a
declaration in front of the pushes, from storage that holds nothing at the places involved, whose
slots are different from each other: the sum over one field has the exact sum of what this field
was given last, over the elements of the array in their order, or the fault of the first value of
another kind or of the first sum out of range. It is pushed as any result is. -/
theorem Machine.sums_last_given {arrayToken : Token}
    (harray : Word.ofText? arrayToken = some array.word) (hfield : field.text ≠ "")
    {ops : List RecordOp} (hdeclares : Declares false ops)
    {tokens : List Token} (hp : Assembly.ofTokens .standard tokens = .ok a)
    (hlink : a.link = .ok code) {m : Machine σ} (hc : m.program.code = code.toArray)
    {rest : List (Instr Token)}
    (hat : a.At m.program.pc (ops.flatMap (instrs array.word) ++ fieldSumInstr array field :: rest))
    (hapart : RecordPlace.Apart array.text (RecordPlace.Involved ops field.text))
    (hzero : ∀ p, RecordPlace.Involved ops field.text p →
      m.work.locals (p.slot array.text) = .zero) :
    TokenReader.Reads .standard
      (ops.flatMap (RecordOp.tokens arrayToken) ++ ["sumThroughStructs", arrayToken, field.text])
      (ops.flatMap (instrs array.word) ++ [fieldSumInstr array field]) ∧
    ∃ m₁ s result,
      m₁ = { m with
        program := m.program.moveTo
          (m.program.pc + Assembly.sizeSum (ops.flatMap (instrs array.word)))
        work := { m.work with store := s } } ∧
      Steps m m₁ ∧
      Totals ((ops.flatMap appended).map fun n =>
        lastGiven (ops.flatMap assignments) n.text field.text) result ∧
      (m₁.step.1, m₁.step.2.work) = Effect.pushResult result m₁.work := by
  have hl := Assembly.linked_of_tokens hp hlink
  have hlen : (ops.flatMap appended).length < UInt64.size := by
    have hsize := hat.le_size
    have hpushes := length_appended_le array.word ops
    have hmax : a.size ≤ 65535 := hl.size_le
    have h64 : 65535 < UInt64.size := by decide
    rw [Assembly.sizeSum_append] at hsize
    omega
  obtain ⟨s, hs, hshows⟩ := performAll_from_zero hdeclares hlen hapart hzero
  obtain ⟨result, htotals, hresult⟩ := Effect.fieldSum_of_shows hshows rfl hlen trivial
    (fun i hi => hi) fun n hn => ⟨.inr ⟨rfl, n, hn, rfl⟩, .inr ⟨rfl, n, hn, rfl⟩⟩
  refine ⟨(reads_ops harray ops).append (reads_fieldSum harray field), _, s, result, rfl,
    steps_straight hl (isStraight_instrs array.word ops) hc hat hs, htotals, ?_⟩
  refine step_of_fieldSum hl rest ?_ ?_ hfield hresult
  · exact hc
  · exact hat.behind

end Programs

/-! ### A struct that is pushed twice -/

namespace PushedTwice

/-- A struct `S`. -/
def owner : Name := ⟨"S", by decide, by decide⟩

/-- A field `f`. -/
def field : Name := ⟨"f", by decide, by decide⟩

/-- The name `A`. -/
def arrayName : Name := ⟨"A", by decide, by decide⟩

/-- The array of that name. -/
def array : ArrayName := ⟨"A", arrayName.word, Name.nameText?_word (by decide)⟩

/-- The field `f` with the value one. -/
def one : FieldText :=
  ⟨"f", "1", .uint256, .ofUInt256 .one, by decide +kernel, by decide +kernel⟩

/-- The field `f` with the value seven. -/
def seven : FieldText :=
  ⟨"f", "7", .uint256, .ofUInt256 (.ofUInt64 7), by decide +kernel, by decide +kernel⟩

/-- The field is one at the first push and seven at the second. -/
def ops : List RecordOp :=
  [.define owner [one] (by decide), .declare, .append owner ⟨by decide, by decide⟩,
    .define owner [seven] (by decide), .append owner ⟨by decide, by decide⟩]

/-- The places in use when an array holds `S` twice and `S` has the field `f`. -/
def places : List RecordPlace :=
  [.header, .element 0, .element 1, .value "S" "f", .kind "S" "f"]

/-- No other places are involved. -/
theorem mem_places {p : RecordPlace} (h : p.Involved ops "f") : p ∈ places := by
  have hgiven : ∀ a ∈ ops.flatMap RecordOp.assignments, a.owner = "S" ∧ a.key = "f" := by decide
  have hpushed : ∀ n ∈ ops.flatMap RecordOp.appended, n.text = "S" := by decide
  cases p with
  | header => decide
  | element i =>
    have hi : i < 2 := h
    obtain rfl | rfl : i = 0 ∨ i = 1 := by omega
    · decide
    · decide
  | value o k | kind o k =>
    obtain ⟨rfl, rfl⟩ : o = "S" ∧ k = "f" := by
      rcases h with ⟨a, ha, rfl, rfl⟩ | ⟨rfl, n, hn, rfl⟩
      · exact hgiven a ha
      · exact ⟨hpushed n hn, rfl⟩
    decide

/-- The slots of these places are different. -/
theorem nodup_slots : (places.map (RecordPlace.slot "A")).Nodup := by
  have hvalue : Slot.field "S" "f" = ⟨[211, 183, 91, 28], rfl⟩ := by decide +kernel
  have hkind : Slot.kindTag ⟨[211, 183, 91, 28], rfl⟩ = ⟨[38, 46, 70, 23], rfl⟩ := by
    decide +kernel
  simp only [places, List.map_cons, List.map_nil, RecordPlace.slot, Slot.ofName_A,
    Slot.element_A_zero, Slot.element_A_one, hvalue, hkind]
  decide

end PushedTwice

open PushedTwice RecordOp in
/-- Both elements count for the seven that was given last. -/
theorem Machine.sums_last_given_of_pushed_twice :
    let tokens := ["struct", "S", "f", "1", "endStruct", "declareArr", "struct", "A", "push", "S",
      "A", "struct", "S", "f", "7", "endStruct", "push", "S", "A", "sumThroughStructs", "A", "f"]
    ∃ (a : Assembly) (code : List UInt8) (m₁ : Machine Storage),
      Assembly.ofTokens .standard tokens = .ok a ∧ a.link = .ok code ∧
      Steps ((fresh .zero .default Table.empty .empty).load code.toArray) m₁ ∧
      (m₁.step.1, m₁.step.2.work.stack.cells) = (.ok (), [.integer ⟨14, by decide⟩]) := by
  intro tokens
  have harray : Word.ofText? "A" = some array.word := arrayName.ofText?_text
  have hreads : TokenReader.Reads .standard tokens
      (ops.flatMap (instrs array.word) ++ [fieldSumInstr array field]) :=
    (reads_ops harray ops).append (reads_fieldSum harray field)
  have hstraight : ∀ i ∈ ops.flatMap (instrs array.word) ++ [fieldSumInstr array field],
      i.IsStraight :=
    List.forall_mem_append.mpr ⟨isStraight_instrs array.word ops,
      List.forall_mem_singleton.mpr ⟨rfl, by rintro ⟨⟩⟩⟩
  have hlink := Assembly.link_straight hstraight (by decide)
  have hapart : RecordPlace.Apart array.text (RecordPlace.Involved ops field.text) :=
    fun p q hp hq he => List.inj_on_of_nodup_map nodup_slots (mem_places hp) (mem_places hq) he
  obtain ⟨-, m₁, s, result, hm₁, hsteps, htotals, hpush⟩ :=
    sums_last_given harray (by decide) (show Declares false ops from ⟨rfl, rfl, rfl⟩)
      hreads.ofTokens hlink
      (m := (fresh .zero .default (Table.empty : Storage) .empty).load
        (Assembly.encode ⟨_, []⟩).toArray)
      rfl (Assembly.at_main _) hapart (fun p _ => rfl)
  have hgiven : ((ops.flatMap appended).map fun n =>
      lastGiven (ops.flatMap assignments) n.text field.text)
        = [some (seven.assignment owner), some (seven.assignment owner)] := by rfl
  rw [hgiven] at htotals
  have hresult : result = .ok (.integer ⟨14, by decide⟩) := by
    refine htotals.eq_exact ?_ (by decide +kernel)
    intro g hg
    have hg : g = some (seven.assignment owner) := by simpa using hg
    subst hg
    rintro a ⟨⟩
    rfl
  have hroom : m₁.work.stack.depth < m₁.work.stack.limit := by
    subst hm₁
    exact Nat.zero_lt_succ _
  have hcells : m₁.work.stack.cells = [] := by
    subst hm₁
    rfl
  rw [hresult] at hpush
  have hpushed := hpush.trans (Effect.push_of_room hroom _)
  obtain ⟨hok, hwork⟩ := Prod.mk.inj hpushed
  refine ⟨_, _, m₁, hreads.ofTokens, hlink, hsteps, ?_⟩
  rw [hok, hwork]
  exact congrArg (fun cells => (Except.ok (), Cell.integer _ :: cells)) hcells

end Proviso
