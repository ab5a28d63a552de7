import Proviso.Proofs.Conservation
import Proviso.Proofs.Footprint
import Proviso.Proofs.Values
import Proviso.Proofs.Words

/-!
# Arrays as lists

An array is spread over storage: a header in the slot of its name, and each element in a slot of
its own. A program that works on arrays sees none of this. It sees a list of words of one kind for
each name that was declared (`WordArray`), and the instructions act on these lists (`Arrays.act`).

The lists are held in storage by the relation `Workspace.Holds`. It needs no more than that the
slots in use are different from each other, which the digests of their names do not promise. One
instruction keeps the relation and gives the result of the lists (`ArrayInstr.perform_of_holds`);
so does every sequence of them, also behind an instruction that fails (`Machine.attempts_arrays`).
-/

namespace Proviso

/-! ### Arrays -/

/-- An array as a program sees it. -/
structure WordArray where
  kind : ValueKind
  words : List Word
  deriving DecidableEq

/-- The sum of words as numbers. -/
def totalOfWords : List Word → Nat
  | []      => 0
  | w :: ws => w.toNat + totalOfWords ws

/-- What can be asked of an array. -/
inductive ArrayOp where
  | declare (kind : ValueKind) (legal : kind ∈ Opcode.declare.variants)
  | append (kind : ValueKind) (value : Word)
  | element (index : UInt256)
  | length
  | sum

namespace ArrayOp

/-- The opcode of an operation. -/
def opcode : ArrayOp → Opcode
  | .declare .. => .declare
  | .append ..  => .append
  | .element _  => .element
  | .length     => .length
  | .sum        => .sum

/-- The fault of asking for another kind than that of the array. -/
def mismatch (op : ArrayOp) (name : String) (a : WordArray) (asked : ValueKind) : Fault :=
  .arrayTypeMismatch op.opcode.mnemonic name a.kind.name asked.name

/-- What becomes of the array under a name: the cell that is pushed, if any, or a fault, and the
array afterwards. -/
def act (name : String) (op : ArrayOp) :
    Option WordArray → Except Fault (Option Cell) × Option WordArray
  | none =>
    match op with
    | .declare k _ => (.ok none, some ⟨k, []⟩)
    | _            => (.error (.undeclaredArray op.opcode.mnemonic name), none)
  | some a =>
    match op with
    | .declare k _ => (if a.kind = k then .ok none else .error (op.mismatch name a k), some a)
    | .append k v  =>
      if a.kind = k then (.ok none, some ⟨k, a.words ++ [v]⟩)
      else (.error (op.mismatch name a k), some a)
    | .element i   =>
      (match a.words[i.toNat]? with
        | some w => (typedCell .element a.kind w).map some
        | none   => .error (.indexOutOfBounds op.opcode.mnemonic name i.toDecimal a.words.length),
      some a)
    | .length      => (.ok ((UInt256.ofNat? a.words.length).map .integer), some a)
    | .sum         =>
      (if a.kind = .uint256 then
        (inRange (totalOfWords a.words) (.overflow op.opcode.mnemonic)).map some
      else .error (op.mismatch name a .uint256),
      some a)

end ArrayOp

/-- A name that is not empty, and the operand that spells it. -/
structure ArrayName where
  text : String
  word : Word
  spelt : nameText? word = some text

/-- An instruction on an array. -/
structure ArrayInstr where
  op : ArrayOp
  name : ArrayName

/-- The operation as an instruction of the machine. -/
def ArrayInstr.instr (i : ArrayInstr) : Instr Nat :=
  match i.op with
  | .declare k _ => ⟨.declare, (k, i.name.word, ())⟩
  | .append k v  => ⟨.append, ((k, v), i.name.word, ())⟩
  | .element n   => ⟨.element, (n, i.name.word, ())⟩
  | .length      => ⟨.length, (i.name.word, ())⟩
  | .sum         => ⟨.sum, (i.name.word, ())⟩

/-- The arrays that have been declared, by their names. -/
abbrev Arrays := String → Option WordArray

namespace Arrays

/-- No array. -/
def none : Arrays := fun _ => Option.none

/-- Carries out an instruction on the array that it names; the others stay as they are. -/
def act (arrays : Arrays) (i : ArrayInstr) : Except Fault (Option Cell) × Arrays :=
  let (r, a) := i.op.act i.name.text (arrays i.name.text)
  (r, fun n => if n = i.name.text then a else arrays n)

/-- Carries out instructions one after another, whether they fail or not. -/
def actAll (arrays : Arrays) : List ArrayInstr → List (Except Fault (Option Cell)) × Arrays
  | []      => ([], arrays)
  | i :: is =>
    let (r, arrays') := arrays.act i
    let (rs, final) := arrays'.actAll is
    (r :: rs, final)

end Arrays

/-! ### Sums -/

/-- Sums that are checked one after another fail exactly if the sum of all is out of range. -/
theorem totalFrom_words {overflow : Fault} {term : Nat → Except Fault UInt256} {ws : List Word}
    {start : Nat} (h : ∀ i w, ws[i]? = some w → term (start + i) = .ok w.toUInt256)
    (t : UInt256) :
    (totalFrom overflow term ws.length start t).map Cell.integer
      = inRange (t.toNat + totalOfWords ws) overflow := by
  induction ws generalizing start t with
  | nil =>
    rw [inRange, totalOfWords, Nat.add_zero, dif_pos t.toNat_lt]
    rfl
  | cons w ws ih =>
    have hw : term start = .ok w.toUInt256 := h 0 w rfl
    have hws : ∀ i v, ws[i]? = some v → term (start + 1 + i) = .ok v.toUInt256 := by
      intro i v hv
      have hi := h (i + 1) v hv
      rwa [Nat.add_comm i 1, ← Nat.add_assoc] at hi
    rw [List.length_cons, totalFrom, hw]
    dsimp only
    cases ht : t.add? w.toUInt256 with
    | some t' =>
      have ht' : t'.toNat = t.toNat + w.toNat := UInt256.toNat_of_add? ht
      dsimp only
      rw [ih hws t', ht', totalOfWords, Nat.add_assoc]
    | none =>
      -- this sum is out of range already, and the rest does not make it smaller
      have hover : UInt256.size ≤ t.toNat + w.toNat := UInt256.size_le_of_add? ht
      rw [inRange, totalOfWords, dif_neg (by omega)]
      rfl

/-! ### Arrays in storage -/

/-- Where a part of an array is kept. -/
inductive Place where
  | header (array : String)
  | element (array : String) (index : Nat)

/-- The array that a place is part of. -/
def Place.array : Place → String
  | .header n    => n
  | .element n _ => n

/-- The slot of a place. -/
def Place.slot : Place → Slot
  | .header n    => .ofName n
  | .element n i => .element n i

namespace Arrays

/-- The places of the named arrays: a header for each, declared or not, and the elements. -/
def Uses (arrays : Arrays) (names : List String) : Place → Prop
  | .header n    => n ∈ names
  | .element n i => n ∈ names ∧ ∃ a, arrays n = some a ∧ i < a.words.length

/-- No two places in use share a slot. -/
def Apart (arrays : Arrays) (names : List String) : Prop :=
  ∀ p q, arrays.Uses names p → arrays.Uses names q → p.slot = q.slot → p = q

/-- The lengths fit in a header. -/
def Short (arrays : Arrays) (names : List String) : Prop :=
  ∀ n ∈ names, ∀ a, arrays n = some a → a.words.length < UInt64.size

end Arrays

namespace Workspace

variable {σ : Type} [Store σ]

/-- Storage holds an array: its kind and length in the header, each word in its element's slot. -/
def Holds (w : Workspace σ) (n : String) : Option WordArray → Prop
  | none   => Header.decode? (w.locals (.ofName n)) = none
  | some a =>
    Header.decode? (w.locals (.ofName n)) = some ⟨a.kind, .ofNat a.words.length⟩ ∧
      ∀ i v, a.words[i]? = some v → w.locals (.element n i) = v

/-- Storage holds the named arrays, and nothing under a name without an array. -/
def HoldsAll (w : Workspace σ) (names : List String) (arrays : Arrays) : Prop :=
  ∀ n ∈ names, w.Holds n (arrays n)

/-- The workspace with the cell of a result on its stack, if there is one. -/
def after (w : Workspace σ) : Except Fault (Option Cell) → Workspace σ
  | .ok (some c) => w.pushed c
  | _            => w

end Workspace

/-! ### One instruction -/

/-- The cells that a result leaves on the stack. -/
def cellsOf : Except Fault (Option Cell) → List Cell
  | .ok c    => c.toList
  | .error _ => []

namespace ArrayOp

variable {σ : Type} [Store σ] {w : Workspace σ} {n : String} {a : WordArray}

/-- What is carried out for the array under a name. -/
def effect (n : String) : ArrayOp → Effect σ Unit
  | .declare k _ => Effect.declare .declare k n
  | .append k v  => Effect.append .append k v n
  | .element i   => Effect.element .element i n
  | .length      => Effect.length .length n
  | .sum         => Effect.sum .sum n

/-- What is written for the array under a name. -/
def write (n : String) (op : ArrayOp) (a? : Option WordArray) (w : Workspace σ) : Workspace σ :=
  match op, a? with
  | .declare k _, none  => w.written (.ofName n) (Header.encode ⟨k, 0⟩)
  | .append k v, some a =>
    if a.kind = k then
      (w.written (.element n a.words.length) v).written (.ofName n)
        (Header.encode ⟨k, .ofNat (a.words.length + 1)⟩)
    else w
  | _, _                => w

theorem loadLocal_apply (k : Slot) (w : Workspace σ) :
    Effect.loadLocal k w = (.ok (w.locals k), w) := rfl

/-- Where no array is declared, there is no header to load. -/
theorem header_of_none (op : Opcode) (h : w.Holds n none) :
    Effect.header op n w = (.error (.undeclaredArray op.mnemonic n), w) := by
  have hd : Header.decode? (w.locals (.ofName n)) = none := h
  rw [Effect.header, Act.bind_of_ok (loadLocal_apply _ w), hd]
  rfl

/-- The header of a declared array has its kind and its length. -/
theorem header_of_some (op : Opcode) (h : w.Holds n (some a)) :
    Effect.header op n w = (.ok ⟨a.kind, .ofNat a.words.length⟩, w) := by
  rw [Effect.header, Act.bind_of_ok (loadLocal_apply _ w), h.1]
  rfl

omit [Store σ] in
/-- A result is pushed if there is room for it. -/
theorem pushResult_after {r : Except Fault Cell}
    (hroom : w.stack.depth + (cellsOf (r.map some)).length ≤ w.stack.limit) :
    Effect.pushResult r w = ((r.map some).map fun _ => (), w.after (r.map some)) := by
  cases r with
  | error f => rfl
  | ok c => exact Effect.push_of_room hroom c

/-- The effect has the result of the list, and writes what is to be written for it. -/
def Agrees (op : ArrayOp) (n : String) (a? : Option WordArray) (w : Workspace σ) : Prop :=
  op.effect n w
    = ((op.act n a?).1.map fun _ => (), (op.write n a? w).after (op.act n a?).1)

/-- On an undeclared array every operation fails but a declaration, which makes a header. -/
theorem agrees_none (op : ArrayOp) (h : w.Holds n none) : op.Agrees n none w := by
  cases op with
  | declare k hk =>
    have hd : Header.decode? (w.locals (.ofName n)) = none := h
    rw [Agrees, effect, Effect.declare, Act.bind_of_ok (loadLocal_apply _ w), hd]
    rfl
  | append | element | length | sum => exact Act.bind_of_error (header_of_none _ h) _

/-- An array is declared again: with its own kind to no effect, with another in vain. -/
theorem agrees_declare (k : ValueKind) (hk : k ∈ Opcode.declare.variants)
    (h : w.Holds n (some a)) : (declare k hk).Agrees n (some a) w := by
  rw [Agrees, effect, Effect.declare, Act.bind_of_ok (loadLocal_apply _ w), h.1]
  by_cases hkind : a.kind = k
  · simp only [Effect.expectKind, act, write, if_pos hkind]
    rfl
  · simp only [Effect.expectKind, act, write, if_neg hkind]
    rfl

theorem toNat_length (hlen : a.words.length < UInt64.size) :
    (UInt64.ofNat a.words.length).toNat = a.words.length :=
  UInt64.toNat_ofNat_of_lt hlen

/-- A word is put behind the others and the header counts it, if the kinds agree. -/
theorem agrees_append (k : ValueKind) (v : Word) (h : w.Holds n (some a))
    (hlen : a.words.length < UInt64.size) : (append k v).Agrees n (some a) w := by
  rw [Agrees, effect, Effect.append, Act.bind_of_ok (header_of_some _ h)]
  by_cases hkind : a.kind = k
  · subst hkind
    simp only [Effect.expectKind, act, write, toNat_length hlen, UInt64.ofNat_add]
    rfl
  · simp only [Effect.expectKind, act, write, if_neg hkind]
    rfl

/-- An element is pushed if the index is below the length. -/
theorem agrees_element (i : UInt256) (h : w.Holds n (some a))
    (hlen : a.words.length < UInt64.size)
    (hroom : w.stack.depth + (cellsOf ((element i).act n (some a)).1).length ≤ w.stack.limit) :
    (element i).Agrees n (some a) w := by
  rw [Agrees, effect, Effect.element, Act.bind_of_ok (header_of_some _ h), toNat_length hlen]
  by_cases hi : i.toNat < a.words.length
  · obtain ⟨v, hv⟩ : ∃ v, a.words[i.toNat]? = some v := ⟨_, List.getElem?_eq_getElem hi⟩
    simp only [act, hv] at hroom ⊢
    rw [if_pos hi]
    show Effect.pushResult (typedCell .element a.kind (w.locals (.element n i.toNat))) w = _
    rw [h.2 _ v hv]
    exact pushResult_after hroom
  · simp only [act, List.getElem?_eq_none (Nat.not_lt.mp hi), if_neg hi]
    rfl

/-- The length is pushed as an integer. -/
theorem agrees_length (h : w.Holds n (some a)) (hlen : a.words.length < UInt64.size)
    (hroom : w.stack.depth + (cellsOf (length.act n (some a)).1).length ≤ w.stack.limit) :
    length.Agrees n (some a) w := by
  have hsize : a.words.length < UInt256.size := Nat.lt_trans hlen (by decide)
  have hcell : (UInt256.ofNat? a.words.length).map Cell.integer
      = some (.integer (.ofUInt64 (.ofNat a.words.length))) := by
    rw [UInt256.ofNat?, dif_pos hsize, Option.map_some]
    exact congrArg (some ∘ Cell.integer) (UInt256.ext (toNat_length hlen).symm)
  rw [Agrees, effect, Effect.length, Act.bind_of_ok (header_of_some _ h)]
  simp only [act, hcell] at hroom ⊢
  exact Effect.push_of_room hroom _

/-- The sum is pushed if the elements are integers and it is in range. -/
theorem agrees_sum (h : w.Holds n (some a)) (hlen : a.words.length < UInt64.size)
    (hroom : w.stack.depth + (cellsOf (sum.act n (some a)).1).length ≤ w.stack.limit) :
    sum.Agrees n (some a) w := by
  rw [Agrees, effect, Effect.sum, Act.bind_of_ok (header_of_some _ h)]
  by_cases hkind : a.kind = .uint256
  · have htotal : (totalFrom (.overflow Opcode.sum.mnemonic)
          (fun i => .ok (w.locals (.element n i)).toUInt256) a.words.length 0 .zero).map
            Cell.integer
        = inRange (totalOfWords a.words) (.overflow Opcode.sum.mnemonic) := by
      rw [totalFrom_words (fun i v hv => by rw [Nat.zero_add, h.2 i v hv])]
      exact congrArg (inRange · _) (Nat.zero_add _)
    simp only [act, if_pos hkind] at hroom ⊢
    rw [Effect.expectKind, if_pos hkind, toNat_length hlen]
    exact (congrArg (Effect.pushResult · w) htotal).trans (pushResult_after hroom)
  · simp only [Effect.expectKind, act, write, if_neg hkind]
    rfl

/-- Storage that holds an array gives the results of the list. -/
theorem agrees_of_holds {a? : Option WordArray} (op : ArrayOp) (h : w.Holds n a?)
    (hlen : ∀ a, a? = some a → a.words.length < UInt64.size)
    (hroom : w.stack.depth + (cellsOf (op.act n a?).1).length ≤ w.stack.limit) :
    op.Agrees n a? w := by
  cases a? with
  | none => exact agrees_none op h
  | some a =>
    cases op with
    | declare k hk => exact agrees_declare k hk h
    | append k v => exact agrees_append k v h (hlen a rfl)
    | element i => exact agrees_element i h (hlen a rfl) hroom
    | length => exact agrees_length h (hlen a rfl) hroom
    | sum => exact agrees_sum h (hlen a rfl) hroom

end ArrayOp

/-! ### Writes leave the other arrays alone -/

/-- All that can become of an array and its storage: it is declared, it gets one word more, or
nothing changes. -/
theorem ArrayOp.write_cases {σ : Type} [Store σ] (op : ArrayOp) (n : String)
    (a? : Option WordArray) (w : Workspace σ) :
    (a? = none ∧ ∃ k, (op.act n a?).2 = some ⟨k, []⟩ ∧
      op.write n a? w = w.written (.ofName n) (Header.encode ⟨k, 0⟩)) ∨
    (∃ a v, a? = some a ∧ (op.act n a?).2 = some ⟨a.kind, a.words ++ [v]⟩ ∧
      op.write n a? w = (w.written (.element n a.words.length) v).written (.ofName n)
        (Header.encode ⟨a.kind, .ofNat (a.words.length + 1)⟩)) ∨
    ((op.act n a?).2 = a? ∧ op.write n a? w = w) := by
  cases a? with
  | none =>
    cases op with
    | declare k hk => exact .inl ⟨rfl, k, rfl, rfl⟩
    | append | element | length | sum => exact .inr (.inr ⟨rfl, rfl⟩)
  | some a =>
    cases op with
    | append k v =>
      by_cases hkind : a.kind = k
      · subst hkind
        exact .inr (.inl ⟨a, v, rfl, by rw [act, if_pos rfl], by rw [write, if_pos rfl]⟩)
      · exact .inr (.inr ⟨by rw [act, if_neg hkind], by rw [write, if_neg hkind]⟩)
    | declare | element | length | sum => exact .inr (.inr ⟨rfl, rfl⟩)

namespace Arrays

variable {arrays : Arrays} {names : List String} {i : ArrayInstr}

/-- The array of an instruction changes as its operation says. -/
theorem act_self (arrays : Arrays) (i : ArrayInstr) :
    (arrays.act i).2 i.name.text = (i.op.act i.name.text (arrays i.name.text)).2 :=
  if_pos rfl

/-- An instruction leaves all other arrays. -/
theorem act_other (arrays : Arrays) (i : ArrayInstr) {n : String} (h : n ≠ i.name.text) :
    (arrays.act i).2 n = arrays n :=
  if_neg h

/-- Arrays only grow. -/
def Grows (arrays arrays' : Arrays) : Prop :=
  ∀ n a, arrays n = some a → ∃ a', arrays' n = some a' ∧ a.words.length ≤ a'.words.length

theorem Grows.refl (arrays : Arrays) : arrays.Grows arrays :=
  fun _ a h => ⟨a, h, Nat.le_refl _⟩

theorem Grows.trans {arrays₁ arrays₂ : Arrays} (h₁ : arrays.Grows arrays₁)
    (h₂ : arrays₁.Grows arrays₂) : arrays.Grows arrays₂ := by
  intro n a h
  obtain ⟨a₁, ha₁, hle₁⟩ := h₁ n a h
  obtain ⟨a₂, ha₂, hle₂⟩ := h₂ n a₁ ha₁
  exact ⟨a₂, ha₂, Nat.le_trans hle₁ hle₂⟩

/-- No operation takes a word out of an array, or undeclares it. -/
theorem grows_act (arrays : Arrays) (i : ArrayInstr) : arrays.Grows (arrays.act i).2 := by
  intro n a h
  by_cases hn : n = i.name.text
  · subst hn
    rw [act_self, h]
    cases i.op with
    | append k v =>
      rw [ArrayOp.act]
      split
      · exact ⟨_, rfl, by simp⟩
      · exact ⟨a, rfl, Nat.le_refl _⟩
    | declare | element | length | sum => exact ⟨a, rfl, Nat.le_refl _⟩
  · exact ⟨a, (act_other arrays i hn).trans h, Nat.le_refl _⟩

/-- Nor do any operations, by induction on them. -/
theorem grows_actAll (is : List ArrayInstr) (arrays : Arrays) :
    arrays.Grows (arrays.actAll is).2 := by
  induction is generalizing arrays with
  | nil => exact .refl _
  | cons i is ih => exact (grows_act arrays i).trans (ih _)

variable {arrays' : Arrays}

/-- A place that is in use stays in use. -/
theorem Grows.uses (h : arrays.Grows arrays') {p : Place} (hp : arrays.Uses names p) :
    arrays'.Uses names p := by
  cases p with
  | header n => exact hp
  | element n i =>
    obtain ⟨hn, a, ha, hi⟩ := hp
    obtain ⟨a', ha', hle⟩ := h n a ha
    exact ⟨hn, a', ha', Nat.lt_of_lt_of_le hi hle⟩

/-- If the places in use at the end are apart, those in use before are. -/
theorem Apart.of_grows (h : arrays'.Apart names) (hg : arrays.Grows arrays') :
    arrays.Apart names :=
  fun p q hp hq => h p q (hg.uses hp) (hg.uses hq)

/-- If the lengths fit at the end, they fit before. -/
theorem Short.of_grows (h : arrays'.Short names) (hg : arrays.Grows arrays') :
    arrays.Short names := by
  intro n hn a ha
  obtain ⟨a', ha', hle⟩ := hg n a ha
  exact Nat.lt_of_le_of_lt hle (h n hn a' ha')

end Arrays

section Writes

variable {σ : Type} [Store σ] {w w' : Workspace σ} {names : List String} {arrays : Arrays}
  {i : ArrayInstr}

/-- An array stays held if none of its slots changes. -/
theorem Workspace.Holds.congr {n : String} {a? : Option WordArray} (h : w.Holds n a?)
    (hh : w'.locals (.ofName n) = w.locals (.ofName n))
    (he : ∀ a, a? = some a → ∀ j, j < a.words.length →
      w'.locals (.element n j) = w.locals (.element n j)) : w'.Holds n a? := by
  cases a? with
  | none => exact (congrArg Header.decode? hh).trans h
  | some a =>
    refine ⟨(congrArg Header.decode? hh).trans h.1, fun j v hv => ?_⟩
    rw [he a rfl j (List.getElem?_eq_some_iff.mp hv).1]
    exact h.2 j v hv

variable [LawfulStore σ]

/-- An instruction writes only to places of the array that it names. -/
theorem ArrayInstr.locals_write_of_ne (hn : i.name.text ∈ names) {k : Slot}
    (h : ∀ p, p.array = i.name.text → (arrays.act i).2.Uses names p → p.slot ≠ k) :
    (i.op.write i.name.text (arrays i.name.text) w).locals k = w.locals k := by
  have hheader : Slot.ofName i.name.text ≠ k := h (.header _) rfl hn
  have hself := arrays.act_self i
  obtain ⟨-, kind, -, hw⟩ | ⟨a, v, -, hact, hw⟩ | ⟨-, hw⟩ :=
    i.op.write_cases i.name.text (arrays i.name.text) w
  · rw [hw, Workspace.locals_written, if_neg hheader]
  · rw [hact] at hself
    have helement : Slot.element i.name.text a.words.length ≠ k :=
      h (.element _ _) rfl ⟨hn, _, hself, by simp⟩
    rw [hw, Workspace.locals_written, if_neg hheader, Workspace.locals_written, if_neg helement]
  · rw [hw]

/-- A header without elements is an empty array. -/
theorem Workspace.holds_declared (w : Workspace σ) (n : String) (k : ValueKind) :
    (w.written (.ofName n) (Header.encode ⟨k, 0⟩)).Holds n (some ⟨k, []⟩) := by
  refine ⟨?_, fun j v hv => by cases hv⟩
  rw [locals_written, if_pos rfl, Header.decode?_encode]
  rfl

/-- A word behind the last one and a header that counts it make the array longer, if they overwrite
nothing of it. -/
theorem Workspace.Holds.appended {n : String} {a : WordArray} (h : w.Holds n (some a)) (v : Word)
    (hheader : ∀ j, j ≤ a.words.length → Slot.ofName n ≠ .element n j)
    (hlast : ∀ j, j < a.words.length → Slot.element n a.words.length ≠ .element n j) :
    ((w.written (.element n a.words.length) v).written (.ofName n)
      (Header.encode ⟨a.kind, .ofNat (a.words.length + 1)⟩)).Holds n
        (some ⟨a.kind, a.words ++ [v]⟩) := by
  refine ⟨?_, fun j u hu => ?_⟩
  · rw [locals_written, if_pos rfl, Header.decode?_encode, List.length_append]
    rfl
  · have hj : j < a.words.length + 1 := by
      have hlt := (List.getElem?_eq_some_iff.mp hu).1
      rwa [List.length_append] at hlt
    rw [locals_written, if_neg (hheader j (Nat.le_of_lt_succ hj)), locals_written]
    rcases Nat.lt_succ_iff_lt_or_eq.mp hj with hlt | rfl
    · rw [List.getElem?_append_left hlt] at hu
      rw [if_neg (hlast j hlt)]
      exact h.2 j u hu
    · rw [List.getElem?_concat_length] at hu
      rw [if_pos rfl, Option.some.inj hu]

/-- Storage holds the array that an instruction names also afterwards. -/
theorem ArrayInstr.holds_write (hn : i.name.text ∈ names)
    (hw : w.Holds i.name.text (arrays i.name.text)) (hapart : (arrays.act i).2.Apart names) :
    (i.op.write i.name.text (arrays i.name.text) w).Holds i.name.text
      ((arrays.act i).2 i.name.text) := by
  have hself := arrays.act_self i
  obtain ⟨-, kind, hact, hwrite⟩ | ⟨a, v, ha, hact, hwrite⟩ | ⟨hact, hwrite⟩ :=
    i.op.write_cases i.name.text (arrays i.name.text) w
  · rw [hself, hact, hwrite]
    exact w.holds_declared _ kind
  · rw [hact] at hself
    have huses : ∀ j, j ≤ a.words.length →
        (arrays.act i).2.Uses names (.element i.name.text j) :=
      fun j hj => ⟨hn, _, hself, by simpa using Nat.lt_succ_of_le hj⟩
    rw [ha] at hw
    rw [hself, hwrite]
    refine hw.appended v (fun j hj he => ?_) fun j hj he => ?_
    · cases hapart (.header _) (.element _ _) hn (huses j hj) he
    · cases hapart (.element _ _) (.element _ _) (huses _ (Nat.le_refl _))
        (huses j (Nat.le_of_lt hj)) he
      exact Nat.lt_irrefl _ hj
  · rwa [hself, hact, hwrite]

/-- Storage holds all arrays also after an instruction on one of them. -/
theorem ArrayInstr.holdsAll_write (hn : i.name.text ∈ names) (hw : w.HoldsAll names arrays)
    (hapart : (arrays.act i).2.Apart names) :
    (i.op.write i.name.text (arrays i.name.text) w).HoldsAll names (arrays.act i).2 := by
  intro n hmem
  by_cases hne : n = i.name.text
  · subst hne
    exact i.holds_write hn (hw _ hmem) hapart
  · -- the places of another array are other places, so they have other slots
    have hother : ∀ q : Place, q.array = n → (arrays.act i).2.Uses names q →
        (i.op.write i.name.text (arrays i.name.text) w).locals q.slot = w.locals q.slot := by
      intro q hq huse
      refine i.locals_write_of_ne hn fun p hp hpuse he => hne ?_
      rw [← hq, ← hp, hapart p q hpuse huse he]
    rw [arrays.act_other i hne]
    refine (hw n hmem).congr (hother (.header n) rfl hmem) fun a ha j hj => ?_
    exact hother (.element n j) rfl ⟨hmem, a, (arrays.act_other i hne).trans ha, hj⟩

end Writes

/-! ### Whole sequences -/

theorem ArrayName.name_apply {σ : Type} (name : ArrayName) (op : Opcode) (w : Workspace σ) :
    Effect.name op name.word w = (.ok name.text, w) := by
  rw [Effect.name, name.spelt]
  rfl

namespace ArrayInstr

theorem sound_instr (i : ArrayInstr) : i.instr.Sound IsOffset := by
  obtain ⟨op, name⟩ := i
  cases op with
  | declare k hk => exact ⟨hk, trivial, trivial⟩
  | append | element => exact ⟨trivial, trivial, trivial⟩
  | length | sum => exact ⟨trivial, trivial⟩

theorem runnable_name (op : Opcode) (name : ArrayName) :
    Reader.runnable op .name name.word = none := by
  show (if (nameText? name.word).isSome then none else some (Fault.badName op)) = none
  rw [name.spelt]
  rfl

/-- The operands of an operation on an array pass the checks of execution. -/
theorem defect?_instr (i : ArrayInstr) : i.instr.defect? Reader.runnable = none := by
  obtain ⟨op, name⟩ := i
  cases op with
  | declare k hk =>
    show (Reader.runnable .declare .variant k).or
      ((Reader.runnable .declare .name name.word).or none) = none
    rw [runnable_variant hk, runnable_name]
    rfl
  | append | element =>
    show Option.or none ((Reader.runnable _ .name name.word).or none) = none
    rw [runnable_name]
    rfl
  | length | sum =>
    show (Reader.runnable _ .name name.word).or none = none
    rw [runnable_name]
    rfl

variable {σ : Type} [Store σ]

/-- To carry out an instruction on an array is its effect, and to go on behind it. -/
theorem perform_instr (i : ArrayInstr) (w : Workspace σ) :
    i.instr.perform w = (i.op.effect i.name.text >>= fun _ => pure .next) w := by
  obtain ⟨op, name⟩ := i
  cases op <;> exact Act.bind_of_ok (name.name_apply _ w) _

end ArrayInstr

namespace Machine

variable {σ : Type} [Store σ]

/-- One step, with the cell that it has pushed, if any, or its fault. -/
def attempt (m : Machine σ) : Except Fault (Option Cell) × Machine σ :=
  match m.step with
  | (.error f, m') => (.error f, m')
  | (.ok (), m')   =>
    (.ok (if m.work.stack.depth < m'.work.stack.depth then m'.top? else none), m')

/-- So many steps, whether they fail or not. -/
def attempts : Nat → Machine σ → List (Except Fault (Option Cell)) × Machine σ
  | 0,     m => ([], m)
  | n + 1, m =>
    let (r, m') := m.attempt
    let (rs, final) := attempts n m'
    (r :: rs, final)

end Machine

/-- How instructions on arrays leave a workspace: storage holds the arrays, the results are on the
stack, and everything else is as it was. -/
structure Workspace.Reaches {σ : Type} [Store σ] (names : List String) (w : Workspace σ)
    (results : List (Except Fault (Option Cell))) (arrays : Arrays) (w' : Workspace σ) :
    Prop where
  holds : w'.HoldsAll names arrays
  stack : w'.stack = ⟨(results.flatMap cellsOf).reverse ++ w.stack.cells, w.stack.limit⟩
  rest : ∀ k, (∀ p, arrays.Uses names p → p.slot ≠ k) → w'.locals k = w.locals k
  account : w'.account = w.account
  host : w'.host = w.host
  journal : w'.journal = w.journal

section Sequences

variable {σ : Type} [Store σ] {names : List String} {arrays arrays' : Arrays}
  {w w₁ w₂ : Workspace σ} {rs : List (Except Fault (Option Cell))}

/-- Results and cells of one instruction and of those behind it add up. -/
theorem Workspace.Reaches.cons {r : Except Fault (Option Cell)}
    (h₁ : w.Reaches names [r] arrays w₁) (h₂ : w₁.Reaches names rs arrays' w₂)
    (hg : arrays.Grows arrays') : w.Reaches names (r :: rs) arrays' w₂ where
  holds := h₂.holds
  stack := by rw [h₂.stack, h₁.stack]; simp
  rest k hk := (h₂.rest k hk).trans (h₁.rest k fun p hp => hk p (hg.uses hp))
  account := h₂.account.trans h₁.account
  host := h₂.host.trans h₁.host
  journal := h₂.journal.trans h₁.journal

/-- An operation writes to the storage only. -/
theorem ArrayOp.write_eq (op : ArrayOp) (n : String) (a? : Option WordArray)
    (w : Workspace σ) : ∃ s, op.write n a? w = { w with store := s } := by
  obtain ⟨-, _, -, h⟩ | ⟨_, _, -, -, h⟩ | ⟨-, h⟩ := op.write_cases n a? w <;> exact ⟨_, h⟩

omit [Store σ] in
/-- A result goes to the stack only. -/
theorem Workspace.after_eq (w : Workspace σ) (r : Except Fault (Option Cell)) :
    w.after r = { w with stack := ⟨cellsOf r ++ w.stack.cells, w.stack.limit⟩ } := by
  obtain _ | _ | c := r <;> rfl

variable [LawfulStore σ]

/-- **One instruction.** On storage that holds the arrays it has the result of the lists, and leaves
storage that holds them afterwards. -/
theorem ArrayInstr.perform_of_holds (i : ArrayInstr) (hn : i.name.text ∈ names)
    (hw : w.HoldsAll names arrays) (hapart : (arrays.act i).2.Apart names)
    (hshort : arrays.Short names)
    (hroom : w.stack.depth + (cellsOf (arrays.act i).1).length ≤ w.stack.limit) :
    ∃ w', i.instr.perform w = ((arrays.act i).1.map fun _ => .next, w') ∧
      w.Reaches names [(arrays.act i).1] (arrays.act i).2 w' := by
  have heffect : i.op.Agrees i.name.text (arrays i.name.text) w :=
    i.op.agrees_of_holds (hw _ hn) (hshort _ hn) hroom
  have hholds := i.holdsAll_write hn hw hapart
  obtain ⟨s, hs⟩ := i.op.write_eq i.name.text (arrays i.name.text) w
  refine ⟨(i.op.write i.name.text (arrays i.name.text) w).after (arrays.act i).1, ?_, ?_⟩
  · have hresult : (arrays.act i).1 = (i.op.act i.name.text (arrays i.name.text)).1 := rfl
    rw [perform_instr, Act.bind_apply, heffect, hresult]
    cases (i.op.act i.name.text (arrays i.name.text)).1 <;> rfl
  · rw [Workspace.after_eq]
    refine ⟨hholds, ?_, fun k hk => ?_, ?_, ?_, ?_⟩
    · rw [hs]
      cases (arrays.act i).1 with
      | error f => rfl
      | ok c => cases c <;> rfl
    · exact i.locals_write_of_ne hn fun p _ hp => hk p hp
    all_goals rw [hs]

/-- An instruction on an array that is held gives what the operation gives, moves the machine behind
itself, and leaves a workspace that holds the arrays after it. -/
theorem Machine.attempt_of_holds (m : Machine σ) (i : ArrayInstr) (hn : i.name.text ∈ names)
    (hcode : Stands m.program.code m.program.pc i.instr.encode)
    (hw : m.work.HoldsAll names arrays) (hapart : (arrays.act i).2.Apart names)
    (hshort : arrays.Short names)
    (hroom : m.work.stack.depth + (cellsOf (arrays.act i).1).length ≤ m.work.stack.limit) :
    ∃ w', m.attempt = ((arrays.act i).1,
        { m with program := m.program.moveTo (m.program.pc + i.instr.size), work := w' }) ∧
      m.work.Reaches names [(arrays.act i).1] (arrays.act i).2 w' := by
  have hdecode := decodeAt_encode i.sound_instr i.defect?_instr hcode
  obtain ⟨w', hperform, hreach⟩ := i.perform_of_holds hn hw hapart hshort hroom
  refine ⟨w', ?_, hreach⟩
  have hstack := hreach.stack
  rcases hr : (arrays.act i).1 with f | c
  · rw [hr] at hperform
    rw [attempt, step_of_perform_error hdecode hperform]
  · rw [hr] at hperform hstack
    have hpushed :
        (if m.work.stack.depth < w'.stack.depth then w'.stack.top? else none) = c := by
      rw [hstack]
      cases c with
      | none => exact if_neg (Nat.lt_irrefl _)
      | some c => exact if_pos (Nat.lt_succ_self _)
    rw [attempt, step_of_perform_ok hdecode hperform]
    exact congrArg (fun c => (Except.ok c, _)) hpushed

/-- **A sequence of instructions.** -/
theorem Machine.attempts_of_holds (m : Machine σ) (is : List ArrayInstr)
    (hnames : ∀ i ∈ is, i.name.text ∈ names)
    (hcode : Stands m.program.code m.program.pc (is.flatMap fun i => i.instr.encode))
    (hw : m.work.HoldsAll names arrays) (hapart : (arrays.actAll is).2.Apart names)
    (hshort : (arrays.actAll is).2.Short names)
    (hroom : m.work.stack.depth + ((arrays.actAll is).1.flatMap cellsOf).length
      ≤ m.work.stack.limit) :
    (m.attempts is.length).1 = (arrays.actAll is).1 ∧
      m.work.Reaches names (arrays.actAll is).1 (arrays.actAll is).2
        (m.attempts is.length).2.work := by
  induction is generalizing m arrays with
  | nil => exact ⟨rfl, hw, rfl, fun _ _ => rfl, rfl, rfl, rfl⟩
  | cons i is ih =>
    have hg := Arrays.grows_actAll is (arrays.act i).2
    rw [List.flatMap_cons] at hcode
    have hroom' : m.work.stack.depth + (cellsOf (arrays.act i).1).length
        + (((arrays.act i).2.actAll is).1.flatMap cellsOf).length ≤ m.work.stack.limit := by
      rw [Nat.add_assoc, ← List.length_append]
      exact hroom
    obtain ⟨w', hattempt, hreach⟩ := m.attempt_of_holds i (hnames i List.mem_cons_self)
      hcode.left hw (hapart.of_grows hg)
      (hshort.of_grows ((Arrays.grows_act arrays i).trans hg)) (by omega)
    have hrest := ih
      { m with program := m.program.moveTo (m.program.pc + i.instr.size), work := w' }
      (fun j hj => hnames j (List.mem_cons_of_mem _ hj))
      (i.instr.length_encode ▸ hcode.right) hreach.holds hapart hshort
      (by
        have hdepth : w'.stack.depth
            = m.work.stack.depth + (cellsOf (arrays.act i).1).length := by
          rw [hreach.stack]
          simp [Stack.depth, Nat.add_comm]
        have hlimit : w'.stack.limit = m.work.stack.limit := by rw [hreach.stack]
        show w'.stack.depth + _ ≤ w'.stack.limit
        omega)
    rw [List.length_cons, attempts, hattempt]
    exact ⟨congrArg (_ :: ·) hrest.1, hreach.cons hrest.2 hg⟩

end Sequences

/-- **Arrays are lists.** From storage in which the names are undeclared, every sequence of
instructions on these arrays has the results and faults of the lists, each in its turn, and leaves
storage that holds the lists; nothing else changes. It takes that the places in use have slots of
their own, lengths of 64 bits, and room on the stack for what is pushed. -/
theorem Machine.attempts_arrays {σ : Type} [Store σ] [LawfulStore σ] (m : Machine σ)
    (names : List String) (is : List ArrayInstr) (hnames : ∀ i ∈ is, i.name.text ∈ names)
    (hcode : Stands m.program.code m.program.pc (is.flatMap fun i => i.instr.encode))
    (hnew : ∀ n ∈ names, Header.decode? (m.work.locals (.ofName n)) = none)
    (hapart : (Arrays.none.actAll is).2.Apart names)
    (hshort : (Arrays.none.actAll is).2.Short names)
    (hroom : m.work.stack.depth + ((Arrays.none.actAll is).1.flatMap cellsOf).length
      ≤ m.work.stack.limit) :
    (m.attempts is.length).1 = (Arrays.none.actAll is).1 ∧
      m.work.Reaches names (Arrays.none.actAll is).1 (Arrays.none.actAll is).2
        (m.attempts is.length).2.work :=
  m.attempts_of_holds is hnames hcode hnew hapart hshort hroom

/-! ### The slots of two small arrays -/

-- one digest for each lemma: together in one computation they take several times the memory

theorem Slot.ofName_A : Slot.ofName "A" = ⟨[3, 120, 63, 172], rfl⟩ := by decide +kernel

theorem Slot.ofName_B : Slot.ofName "B" = ⟨[31, 103, 91, 255], rfl⟩ := by decide +kernel

theorem Slot.element_A_zero : Slot.element "A" 0 = ⟨[97, 234, 170, 192], rfl⟩ := by
  decide +kernel

theorem Slot.element_A_one : Slot.element "A" 1 = ⟨[56, 28, 229, 44], rfl⟩ := by decide +kernel

theorem Slot.element_B_zero : Slot.element "B" 0 = ⟨[71, 130, 90, 225], rfl⟩ := by decide +kernel

/-- Places with different slots are apart. -/
theorem Arrays.apart_of_nodup {arrays : Arrays} {names : List String} {places : List Place}
    (huses : ∀ p, arrays.Uses names p → p ∈ places) (hslots : (places.map Place.slot).Nodup) :
    arrays.Apart names :=
  fun p q hp hq he => List.inj_on_of_nodup_map hslots (huses p hp) (huses q hq) he

/-- Two arrays by turns: one of integers, which is used before its declaration, declared again, also
with another kind, and gets two words whose sum is out of range once both are there; and one of
flags, which is given an integer in vain and gets one word. Every instruction answers in its turn
and for its own array, and both arrays keep their words. -/
theorem Machine.attempts_arrays_of_two_by_turns :
    let a : ArrayName := ⟨"A", ⟨0x41 :: List.replicate 31 0, by decide⟩, by decide +kernel⟩
    let b : ArrayName := ⟨"B", ⟨0x42 :: List.replicate 31 0, by decide⟩, by decide +kernel⟩
    let big : Word := ⟨List.replicate 32 0xff, by decide⟩
    let one : Word := ⟨List.replicate 31 0 ++ [1], by decide⟩
    let is : List ArrayInstr :=
      [⟨.length, a⟩, ⟨.declare .uint256 (by decide), a⟩, ⟨.declare .bool (by decide), b⟩,
        ⟨.append .uint256 big, a⟩, ⟨.sum, a⟩, ⟨.append .bool one, b⟩, ⟨.append .uint256 one, a⟩,
        ⟨.declare .uint256 (by decide), a⟩, ⟨.declare .bool (by decide), a⟩,
        ⟨.append .uint256 one, b⟩, ⟨.element .zero, a⟩, ⟨.element .one, a⟩, ⟨.element .max, a⟩,
        ⟨.element .zero, b⟩, ⟨.length, a⟩, ⟨.length, b⟩, ⟨.sum, a⟩, ⟨.sum, b⟩]
    let m : Machine Storage :=
      (Machine.fresh .zero .default .empty .empty).load
        (is.flatMap fun i => i.instr.encode).toArray
    let results : List (Except Fault (Option Cell)) :=
      [.error (.undeclaredArray "lengthOf" "A"), .ok none, .ok none, .ok none,
        .ok (some (.integer .max)), .ok none, .ok none, .ok none,
        .error (.arrayTypeMismatch "declareArr" "A" "uint256" "bool"),
        .error (.arrayTypeMismatch "push" "B" "bool" "uint256"), .ok (some (.integer .max)),
        .ok (some (.integer .one)), .error (.indexOutOfBounds "get" "A" UInt256.max.toDecimal 2),
        .ok (some (.flag true)), .ok (some (.integer ⟨2, by decide⟩)),
        .ok (some (.integer .one)), .error (.overflow "sumOf"),
        .error (.arrayTypeMismatch "sumOf" "B" "bool" "uint256")]
    let final := (m.attempts 18).2.work
    (m.attempts 18).1 = results ∧ final.locals (.element "A" 0) = big ∧
      final.locals (.element "A" 1) = one ∧ final.locals (.element "B" 0) = one := by
  intro a b big one is m results final
  have hslots : ([Place.header "A", .header "B", .element "A" 0, .element "A" 1,
      .element "B" 0].map Place.slot).Nodup := by
    simp only [List.map_cons, List.map_nil, Place.slot, Slot.ofName_A, Slot.ofName_B,
      Slot.element_A_zero, Slot.element_A_one, Slot.element_B_zero]
    decide
  have hA : (Arrays.none.actAll is).2 "A" = some ⟨.uint256, [big, one]⟩ := by decide +kernel
  have hB : (Arrays.none.actAll is).2 "B" = some ⟨.bool, [one]⟩ := by decide +kernel
  have hnames : ∀ i ∈ is, i.name.text ∈ ["A", "B"] := by decide +kernel
  have hcode : Stands m.program.code m.program.pc (is.flatMap fun i => i.instr.encode) :=
    ⟨[], [], (List.append_nil _).symm, rfl⟩
  have hnew : ∀ n ∈ ["A", "B"], Header.decode? (m.work.locals (.ofName n)) = none := by
    decide +kernel
  have hroom : m.work.stack.depth + ((Arrays.none.actAll is).1.flatMap cellsOf).length
      ≤ m.work.stack.limit := by decide +kernel
  have hcount : 18 = is.length := rfl
  have hresults : (Arrays.none.actAll is).1 = results := by decide +kernel
  show (m.attempts 18).1 = results ∧ (m.attempts 18).2.work.locals (.element "A" 0) = big ∧
    (m.attempts 18).2.work.locals (.element "A" 1) = one ∧
    (m.attempts 18).2.work.locals (.element "B" 0) = one
  rw [← hresults, hcount]
  clear final
  clear_value m is results big one
  have huses : ∀ p, (Arrays.none.actAll is).2.Uses ["A", "B"] p →
      p ∈ [Place.header "A", .header "B", .element "A" 0, .element "A" 1, .element "B" 0] := by
    rintro (n | ⟨n, j⟩) hp
    · obtain rfl | rfl : n = "A" ∨ n = "B" := List.mem_pair.mp hp
      all_goals simp
    · obtain ⟨hn, w, hw, hj⟩ := hp
      obtain rfl | rfl : n = "A" ∨ n = "B" := List.mem_pair.mp hn
      · rw [hA] at hw
        cases hw
        obtain rfl | rfl : j = 0 ∨ j = 1 := by
          have hj' : j < 2 := hj
          omega
        all_goals simp
      · rw [hB] at hw
        cases hw
        obtain rfl : j = 0 := Nat.lt_one_iff.mp hj
        simp
  have hshort : (Arrays.none.actAll is).2.Short ["A", "B"] := by
    intro n hn w hw
    obtain rfl | rfl : n = "A" ∨ n = "B" := List.mem_pair.mp hn
    · rw [hA] at hw
      cases hw
      show 2 < UInt64.size
      decide
    · rw [hB] at hw
      cases hw
      show 1 < UInt64.size
      decide
  have h := m.attempts_arrays ["A", "B"] is hnames hcode hnew
    (Arrays.apart_of_nodup huses hslots) hshort hroom
  have hholdsA := h.2.holds "A" (by simp)
  have hholdsB := h.2.holds "B" (by simp)
  rw [hA] at hholdsA
  rw [hB] at hholdsB
  exact ⟨h.1, hholdsA.2 0 big rfl, hholdsA.2 1 one rfl, hholdsB.2 0 one rfl⟩

end Proviso
