import Proviso.Proofs.Arrays

/-!
# Arrays of structs

A struct keeps each field in a slot that is computed from its tokens, and the kind of the field's
value in a second slot. An array of structs holds their names, each in a word with zeros behind it.

All of this lies at places (`RecordPlace`). While the slots of the places in use are different from
each other, storage is a table of them (`Workspace.Shows`): an instruction writes to some places and
leaves the others as they are (`RecordOp.performAll_op`), and a sequence of instructions leaves the
table of what it has given and pushed (`RecordOp.performAll_instrs`).
-/

namespace Proviso

/-! ### Names in words -/

/-- A name that a word holds: of at most 32 bytes, and without a zero at its end, which could not be
told from the zeros behind it. -/
structure Name where
  text : Token
  fits : (utf8 text).length ≤ 32
  trimmed : (utf8 text).getLast? ≠ some 0

namespace Name

/-- The word of a name: its bytes, with zeros behind them. -/
def word (n : Name) : Word where
  bytes := utf8 n.text ++ List.replicate (32 - (utf8 n.text).length) 0
  length_bytes := by
    have hfits := n.fits
    rw [List.length_append, List.length_replicate]
    omega

/-- The text of a name fits in a word. -/
theorem ofText?_text (n : Name) : Word.ofText? n.text = some n.word :=
  dif_pos n.fits

theorem toText?_word (n : Name) : n.word.toText? = some n.text := by
  rw [Word.toText?, word, Word.trimZeros_append_replicate, Word.trimZeros_of_getLast? n.trimmed,
    ofUTF8?_utf8]

/-- A name is read back from its word, unless it is empty. -/
theorem nameText?_word {n : Name} (h : n.text ≠ "") : nameText? n.word = some n.text := by
  rw [nameText?, toText?_word, Option.filter_some, decide_eq_true h, if_pos rfl]

/-- It cannot be read as a flag or a number. -/
structure IsPlain (n : Name) : Prop where
  not_flag : n.text ≠ "true" ∧ n.text ≠ "false"
  not_numeric : Token.isNumeric n.text = false

end Name

/-! ### Instructions on records -/

/-- A field as it is written: a key that does not end the struct, and a value. -/
structure FieldText where
  key : Token
  value : Token
  kind : ValueKind
  word : Word
  not_end : TokenReader.endsStruct .standard key = false
  spelt : TokenReader.valueOf (.ofOpcode .struct) .string value = .ok (kind, word)

/-- A value that a field of a struct is given. -/
structure Assignment where
  owner : Token
  key : Token
  kind : ValueKind
  word : Word

/-- What is done before a sum: a struct is given fields, the array is declared, or the name of a
struct is pushed to it. -/
inductive RecordOp where
  | define (owner : Name) (fields : List FieldText)
      (few : fields.length ≤ TokenReader.maxFields)
  | declare
  | append (name : Name) (plain : name.IsPlain)

/-- What the field gives to a struct. -/
def FieldText.assignment (owner : Name) (f : FieldText) : Assignment :=
  ⟨owner.text, f.key, f.kind, f.word⟩

/-- The operand that stores an assigned value. -/
def Assignment.field (a : Assignment) : Field :=
  ⟨.field a.owner a.key, a.kind, a.word⟩

namespace RecordOp

/-- The tokens of an operation. -/
def tokens (array : Token) : RecordOp → List Token
  | .define owner fields _ =>
      "struct" :: owner.text :: (fields.flatMap (fun f => [f.key, f.value]) ++ ["endStruct"])
  | .declare               => ["declareArr", "struct", array]
  | .append name _         => ["push", name.text, array]

/-- The fields that an operation gives. -/
def assignments : RecordOp → List Assignment
  | .define owner fields _ => fields.map (·.assignment owner)
  | .declare               => []
  | .append ..             => []

/-- The name that is pushed. -/
def appended : RecordOp → List Name
  | .define ..     => []
  | .declare       => []
  | .append name _ => [name]

/-- The instructions of an operation. -/
def instrs (array : Word) : RecordOp → List (Instr Token)
  | .define owner fields _ =>
      [⟨.struct, (fields.map fun f => (f.assignment owner).field, ())⟩, ⟨.endStruct, ()⟩]
  | .declare               => [⟨.declare, (.struct, array, ())⟩]
  | .append name _         => [⟨.append, ((.struct, name.word), array, ())⟩]

/-- The array is declared before the first push, and in the end. -/
def Declares (declared : Bool) : List RecordOp → Prop
  | []                => declared = true
  | .define .. :: ops => Declares declared ops
  | .declare :: ops   => Declares true ops
  | .append .. :: ops => declared = true ∧ Declares declared ops

end RecordOp

/-! ### Reading -/

namespace TokenReader

/-- A name that is no literal is taken as a text. -/
theorem valueOf_plain {n : Name} (h : n.IsPlain) (e : Entry) (k : ValueKind) :
    valueOf e k n.text = .ok (k, n.word) := by
  rw [valueOf, if_neg h.not_flag.1, if_neg h.not_flag.2, h.not_numeric, if_neg Bool.false_ne_true,
    nameWord, n.ofText?_text]
  rfl

theorem operand_name {t : Token} {w : Word} (h : Word.ofText? t = some w) (e : Entry)
    (r : List Token) : operand .standard e .name (t :: r) = (.ok w, r) := by
  show Act.lift (nameWord t) r = _
  rw [nameWord, h]
  rfl

/-- The fields of a struct are read up to the token that ends them. -/
theorem fieldsOf_fields (owner : Name) (fields : List FieldText) {room : Nat}
    (h : fields.length ≤ room) (r : List Token) :
    fieldsOf .standard (.ofOpcode .struct) owner.text room
        (fields.flatMap (fun f => [f.key, f.value]) ++ "endStruct" :: r)
      = (.ok (fields.map fun f => (f.assignment owner).field), "endStruct" :: r) := by
  have hend : endsStruct .standard "endStruct" = true := by decide
  induction fields generalizing room with
  | nil =>
    cases r with
    | nil =>
      show fieldsOf _ _ _ _ ["endStruct"] = _
      rw [fieldsOf, hend]
      rfl
    | cons t r =>
      show fieldsOf _ _ _ _ ("endStruct" :: t :: r) = _
      rw [fieldsOf, hend]
      rfl
  | cons f fields ih =>
    have hroom : room ≠ 0 := by
      rintro rfl
      cases h
    have hrest : fields.length ≤ room - 1 := by
      rw [List.length_cons] at h
      omega
    show fieldsOf _ _ _ _ (f.key :: f.value :: (fields.flatMap _ ++ "endStruct" :: r)) = _
    rw [fieldsOf, f.not_end, if_neg Bool.false_ne_true, if_neg hroom, f.spelt]
    dsimp only
    rw [ih hrest]
    rfl

end TokenReader

namespace RecordOp

open TokenReader

/-- The tokens of an operation are read as its instructions. -/
theorem reads_tokens {array : Token} {w : Word} (h : Word.ofText? array = some w) (op : RecordOp) :
    Reads .standard (op.tokens array) (op.instrs w) := by
  cases op with
  | define owner fields few =>
    have hend : Reads .standard [Opcode.endStruct.mnemonic] [⟨.endStruct, ()⟩] :=
      Reads.of_operands .endStruct (fun r => rfl) (by rintro ⟨⟩)
    have hfields : ∀ r, operand .standard (.ofOpcode .struct) .fields
        ((owner.text :: fields.flatMap fun f => [f.key, f.value]) ++ (["endStruct"] ++ r))
          = (.ok (fields.map fun f => (f.assignment owner).field), ["endStruct"] ++ r) := by
      intro r
      have howner : nameWord owner.text = .ok owner.word := by rw [nameWord, owner.ofText?_text]
      show (do let _ ← Act.lift (nameWord owner.text); fieldsOf .standard _ owner.text maxFields
        : TokenReader _) _ = _
      rw [howner]
      exact fieldsOf_fields owner fields few r
    have hstruct := fun r => instr_of_operands .struct (operands_cons (hfields r) rfl)
    exact Reads.cons hstruct (show Opcode.struct ≠ .close by rintro ⟨⟩) hend
  | declare =>
    exact Reads.of_operands .declare
      (fun r => operands_cons rfl (operands_cons (operand_name h _ _) rfl)) (by rintro ⟨⟩)
  | append name plain =>
    have hvalue : ∀ r, operand .standard (.ofOpcode .append) .value (name.text :: r)
        = (.ok (.struct, name.word), r) := by
      intro r
      show Act.lift (valueOf (.ofOpcode .append) .struct name.text) r = _
      rw [valueOf_plain plain]
      rfl
    exact Reads.of_operands .append
      (fun r => operands_cons (hvalue _) (operands_cons (operand_name h _ _) rfl)) (by rintro ⟨⟩)

/-- Operations are read as their instructions. -/
theorem reads_ops {array : Token} {w : Word} (h : Word.ofText? array = some w)
    (ops : List RecordOp) :
    Reads .standard (ops.flatMap (tokens array)) (ops.flatMap (instrs w)) := by
  induction ops with
  | nil => exact .nil
  | cons op ops ih => exact (op.reads_tokens h).append ih

theorem isStraight_instrs (array : Word) (ops : List RecordOp) :
    ∀ i ∈ ops.flatMap (instrs array), i.IsStraight := by
  refine List.forall_mem_flatMap.mpr fun op _ => ?_
  cases op with
  | define owner fields few =>
    exact List.forall_mem_cons.mpr ⟨⟨rfl, by rintro ⟨⟩⟩,
      List.forall_mem_singleton.mpr ⟨rfl, by rintro ⟨⟩⟩⟩
  | declare | append => exact List.forall_mem_singleton.mpr ⟨rfl, by rintro ⟨⟩⟩

/-- Every push takes at least a byte. -/
theorem length_appended_le (array : Word) (ops : List RecordOp) :
    (ops.flatMap appended).length ≤ Assembly.sizeSum (ops.flatMap (instrs array)) := by
  induction ops with
  | nil => exact Nat.le_refl _
  | cons op ops ih =>
    have hop : op.appended.length ≤ Assembly.sizeSum (op.instrs array) := by
      cases op with
      | define | declare => exact Nat.zero_le _
      | append => exact Instr.size_pos _
    rw [List.flatMap_cons, List.length_append, List.flatMap_cons, Assembly.sizeSum_append]
    exact Nat.add_le_add hop ih

end RecordOp

/-! ### What was given last -/

/-- The last value that a field was given. -/
def lastGiven (given : List Assignment) (owner key : Token) : Option Assignment :=
  (given.filter fun a => a.owner = owner ∧ a.key = key).getLast?

/-- The value given last counts. -/
theorem lastGiven_concat (given : List Assignment) (a : Assignment) (owner key : Token) :
    lastGiven (given ++ [a]) owner key
      = if a.owner = owner ∧ a.key = key then some a else lastGiven given owner key := by
  rw [lastGiven, List.filter_append]
  split
  · next h =>
    rw [List.filter_cons, if_pos (decide_eq_true h), List.filter_nil, List.getLast?_concat]
  · next h =>
    have hne : ¬ decide (a.owner = owner ∧ a.key = key) = true := by
      rwa [decide_eq_true_iff]
    rw [List.filter_cons, if_neg hne, List.filter_nil, List.append_nil, lastGiven]

/-- The word of a value, zero where there is none. -/
def givenWord : Option Assignment → Word
  | none   => .zero
  | some a => a.word

/-- The word that records the kind of a value, zero where there is none. -/
def givenTag : Option Assignment → Word
  | none   => .zero
  | some a => kindWord a.kind

/-! ### Records in storage -/

/-- Where a part of the array or of a struct is kept. -/
inductive RecordPlace where
  | header
  | element (index : Nat)
  | value (owner key : Token)
  | kind (owner key : Token)
  deriving DecidableEq

/-- The slot of a place. -/
def RecordPlace.slot (array : String) : RecordPlace → Slot
  | .header          => .ofName array
  | .element i       => .element array i
  | .value owner key => .field owner key
  | .kind owner key  => Slot.kindTag (.field owner key)

/-- The names in the array, if it is declared, and the values that fields were given. -/
structure Records where
  elements? : Option (List Name)
  given : List Assignment

namespace Records

/-- No array and no values. -/
def none : Records :=
  ⟨Option.none, []⟩

/-- The structs in the array, none if it is undeclared. -/
def elements (r : Records) : List Name :=
  r.elements?.getD []

/-- The records once fields are given. -/
def assign (r : Records) (as : List Assignment) : Records :=
  { r with given := r.given ++ as }

/-- The records after an operation. -/
def act (r : Records) : RecordOp → Records
  | .define owner fields _ => r.assign (fields.map (·.assignment owner))
  | .declare               => { r with elements? := some r.elements }
  | .append name _         => { r with elements? := some (r.elements ++ [name]) }

/-- The word at each place. -/
def contents (r : Records) : RecordPlace → Word
  | .header          =>
      match r.elements? with
      | Option.none   => .zero
      | some elements => Header.encode ⟨.struct, .ofNat elements.length⟩
  | .element i       => (r.elements[i]?.map Name.word).getD .zero
  | .value owner key => givenWord (lastGiven r.given owner key)
  | .kind owner key  => givenTag (lastGiven r.given owner key)

end Records

/-- No two places in use share a slot. -/
def RecordPlace.Apart (array : String) (uses : RecordPlace → Prop) : Prop :=
  ∀ p q, uses p → uses q → p.slot array = q.slot array → p = q

section Storage

variable {σ : Type} [Store σ] {array : String} {uses : RecordPlace → Prop}
  {contents contents' : RecordPlace → Word} {w : Workspace σ}

/-- Storage holds these words at the places in use. -/
def Workspace.Shows (w : Workspace σ) (array : String) (uses : RecordPlace → Prop)
    (contents : RecordPlace → Word) : Prop :=
  ∀ p, uses p → w.locals (p.slot array) = contents p

/-- A word that is written to a place in use changes what is held there, and nothing else. -/
theorem Workspace.Shows.written [LawfulStore σ] (h : w.Shows array uses contents)
    (hapart : RecordPlace.Apart array uses) {p : RecordPlace} (hp : uses p) {v : Word}
    (hself : contents' p = v) (hother : ∀ q, q ≠ p → contents' q = contents q) :
    (w.written (p.slot array) v).Shows array uses contents' := by
  intro q hq
  rw [locals_written]
  by_cases hqp : q = p
  · subst hqp
    rw [if_pos rfl, hself]
  · rw [if_neg fun he => hqp (hapart p q hp hq he).symm, hother q hqp]
    exact h q hq

variable {r : Records}

/-- The two words of an assignment make it the last one for its field. -/
theorem Workspace.Shows.assigned [LawfulStore σ] (h : w.Shows array uses r.contents)
    (hapart : RecordPlace.Apart array uses) (a : Assignment)
    (hvalue : uses (.value a.owner a.key)) (hkind : uses (.kind a.owner a.key)) :
    ((w.written a.field.slot a.word).written a.field.slot.kindTag (kindWord a.kind)).Shows array
      uses (r.assign [a]).contents := by
  have hlast : lastGiven (r.given ++ [a]) a.owner a.key = some a := by
    rw [lastGiven_concat, if_pos ⟨rfl, rfl⟩]
  have hfirst : (w.written a.field.slot a.word).Shows array uses
      (fun p => if p = .value a.owner a.key then a.word else r.contents p) :=
    h.written hapart hvalue (if_pos rfl) fun q hq => if_neg hq
  refine hfirst.written hapart hkind (congrArg givenTag hlast) fun q hq => ?_
  cases q with
  | header | element => rfl
  | value o k =>
    show givenWord (lastGiven (r.given ++ [a]) o k) = _
    by_cases hok : a.owner = o ∧ a.key = k
    · obtain ⟨rfl, rfl⟩ := hok
      rw [if_pos rfl, hlast]
      rfl
    · have hne : RecordPlace.value o k ≠ .value a.owner a.key := by
        rintro ⟨⟩
        exact hok ⟨rfl, rfl⟩
      rw [lastGiven_concat, if_neg hok, if_neg hne]
      rfl
  | kind o k =>
    have hok : ¬ (a.owner = o ∧ a.key = k) := by
      rintro ⟨rfl, rfl⟩
      exact hq rfl
    show givenTag (lastGiven (r.given ++ [a]) o k) = _
    rw [lastGiven_concat, if_neg hok]
    rfl

/-- Stored fields are assigned one after another. -/
theorem Effect.storeFields_assignments [LawfulStore σ] (as : List Assignment)
    (h : w.Shows array uses r.contents) (hapart : RecordPlace.Apart array uses)
    (huses : ∀ a ∈ as, uses (.value a.owner a.key) ∧ uses (.kind a.owner a.key)) :
    ∃ s, storeFields (as.map Assignment.field) w = (.ok (), { w with store := s }) ∧
      Workspace.Shows { w with store := s } array uses (r.assign as).contents := by
  induction as generalizing w r with
  | nil =>
    refine ⟨w.store, rfl, ?_⟩
    rw [Records.assign, List.append_nil]
    exact h
  | cons a as ih =>
    obtain ⟨ha, has⟩ := List.forall_mem_cons.mp huses
    obtain ⟨s, hs, hshows⟩ := ih (h.assigned hapart a ha.1 ha.2) has
    have hcons : (r.assign [a]).assign as = r.assign (a :: as) := by
      rw [Records.assign, Records.assign, Records.assign, List.append_assoc]
      rfl
    exact ⟨s, hs, hcons ▸ hshows⟩

/-- Storage that shows the records holds the array. -/
theorem Workspace.Shows.holds (h : w.Shows array uses r.contents) (hheader : uses .header)
    (helement : ∀ i < r.elements.length, uses (.element i)) :
    w.Holds array (r.elements?.map fun els => ⟨.struct, els.map Name.word⟩) := by
  obtain ⟨_ | els, given⟩ := r
  · exact congrArg Header.decode? (h .header hheader)
  · refine ⟨?_, fun i v hi => ?_⟩
    · rw [List.length_map]
      exact (congrArg Header.decode? (h .header hheader)).trans (Header.decode?_encode _)
    · have hlt : i < els.length := by
        have hi := (List.getElem?_eq_some_iff.mp hi).1
        rwa [List.length_map] at hi
      rw [List.getElem?_map] at hi
      refine (h (.element i) (helement i hlt)).trans ?_
      show (els[i]?.map Name.word).getD .zero = v
      rw [hi]
      rfl

end Storage

/-! ### Sequences of instructions -/

namespace Records

theorem given_act (r : Records) (op : RecordOp) :
    (r.act op).given = r.given ++ op.assignments := by
  cases op with
  | define => rfl
  | declare | append => exact (List.append_nil _).symm

theorem elements_act (r : Records) (op : RecordOp) :
    (r.act op).elements = r.elements ++ op.appended := by
  cases op with
  | define | declare => exact (List.append_nil _).symm
  | append => rfl

/-- All operations give what each of them gives, in order. -/
theorem given_foldl_act (ops : List RecordOp) (r : Records) :
    (ops.foldl act r).given = r.given ++ ops.flatMap RecordOp.assignments := by
  induction ops generalizing r with
  | nil => exact (List.append_nil _).symm
  | cons op ops ih =>
    rw [List.foldl_cons, ih, given_act, List.flatMap_cons, List.append_assoc]

/-- They push what each of them pushes, in order. -/
theorem elements_foldl_act (ops : List RecordOp) (r : Records) :
    (ops.foldl act r).elements = r.elements ++ ops.flatMap RecordOp.appended := by
  induction ops generalizing r with
  | nil => exact (List.append_nil _).symm
  | cons op ops ih =>
    rw [List.foldl_cons, ih, elements_act, List.flatMap_cons, List.append_assoc]

/-- A struct that is pushed becomes the last element. -/
theorem contents_concat (els : List Name) (given : List Assignment) (name : Name) (i : Nat) :
    contents ⟨some (els ++ [name]), given⟩ (.element i)
      = if i = els.length then name.word else contents ⟨some els, given⟩ (.element i) := by
  show ((els ++ [name])[i]?.map Name.word).getD .zero = _
  split
  · next h =>
    rw [h, List.getElem?_concat_length]
    rfl
  · next h =>
    rcases Nat.lt_or_gt_of_ne h with hlt | hgt
    · rw [List.getElem?_append_left hlt]
      rfl
    · have hnone : els[i]? = Option.none := List.getElem?_eq_none (Nat.le_of_lt hgt)
      have hlen : (els ++ [name]).length ≤ i := by
        rw [List.length_append]
        exact hgt
      rw [List.getElem?_eq_none hlen]
      show _ = (els[i]?.map Name.word).getD .zero
      rw [hnone]

end Records

namespace RecordOp

variable {r : Records} {op : RecordOp} {ops : List RecordOp}

theorem Declares.tail (h : Declares r.elements?.isSome (op :: ops)) :
    Declares (r.act op).elements?.isSome ops := by
  cases op with
  | define | declare => exact h
  | append name plain =>
    have hrest := h.2
    rwa [h.1] at hrest

/-- Behind the operations the array is declared. -/
theorem Declares.isSome_foldl_act (h : Declares r.elements?.isSome ops) :
    (ops.foldl Records.act r).elements?.isSome = true := by
  induction ops generalizing r with
  | nil => exact h
  | cons op ops ih => exact ih h.tail

/-- From nothing, the operations make the structs that they push and the fields that they give. -/
theorem foldl_act_none {ops : List RecordOp} (h : Declares false ops) :
    ops.foldl Records.act .none = ⟨some (ops.flatMap appended), ops.flatMap assignments⟩ := by
  have hgiven := Records.given_foldl_act ops .none
  have helements := Records.elements_foldl_act ops .none
  have hsome := Declares.isSome_foldl_act (r := .none) h
  obtain ⟨els, hels⟩ := Option.isSome_iff_exists.mp hsome
  rw [Records.elements, hels] at helements
  have happended : els = ops.flatMap appended := helements
  rw [← happended, ← hels]
  exact congrArg (Records.mk _) hgiven

/-- The places in use have room for what the instructions write. -/
structure Covers (uses : RecordPlace → Prop) (r : Records) (ops : List RecordOp) : Prop where
  header : uses .header
  element : ∀ i < r.elements.length + (ops.flatMap appended).length, uses (.element i)
  field : ∀ a ∈ ops.flatMap assignments,
    uses (.value a.owner a.key) ∧ uses (.kind a.owner a.key)

variable {uses : RecordPlace → Prop}

theorem Covers.head (h : Covers uses r (op :: ops)) : Covers uses r [op] where
  header := h.header
  element i hi := by
    refine h.element i ?_
    rw [List.flatMap_singleton] at hi
    rw [List.flatMap_cons, List.length_append]
    omega
  field a ha := by
    rw [List.flatMap_singleton] at ha
    exact h.field a (List.mem_append_left _ ha)

theorem Covers.tail (h : Covers uses r (op :: ops)) : Covers uses (r.act op) ops where
  header := h.header
  element i hi := by
    refine h.element i ?_
    rw [r.elements_act, List.length_append] at hi
    rw [List.flatMap_cons, List.length_append]
    omega
  field a ha := h.field a (List.mem_append_right _ ha)

variable {σ : Type} [Store σ] [LawfulStore σ] {array : ArrayName} {w : Workspace σ}

/-- A declaration makes the array, or finds it. -/
theorem performAll_declare (hw : w.Shows array.text uses r.contents)
    (hapart : RecordPlace.Apart array.text uses) (hcovers : Covers uses r [.declare]) :
    ∃ s, Effect.performAll (declare.instrs array.word) w = (.ok (), { w with store := s }) ∧
      Workspace.Shows { w with store := s } array.text uses (r.act .declare).contents := by
  have hholds := hw.holds hcovers.header hcovers.element
  have hperform : ∀ {w'}, Effect.declare .declare .struct array.text w = (.ok (), w') →
      Effect.performAll (declare.instrs array.word) w = (.ok (), w') := by
    intro w' h
    exact Act.bind_of_ok ((Act.bind_of_ok (array.name_apply _ w) _).trans (Act.bind_of_ok h _)) _
  obtain ⟨_ | els, given⟩ := r
  · refine ⟨_, hperform (ArrayOp.agrees_none (.declare .struct (by decide)) hholds), ?_⟩
    refine hw.written hapart hcovers.header rfl fun q hq => ?_
    cases q with
    | header => exact absurd rfl hq
    | element | value | kind => rfl
  · exact ⟨w.store, hperform (ArrayOp.agrees_declare .struct (by decide) hholds), hw⟩

/-- A push adds the name to the array. -/
theorem performAll_append {name : Name} {plain : name.IsPlain}
    (hw : w.Shows array.text uses r.contents) (hapart : RecordPlace.Apart array.text uses)
    (hcovers : Covers uses r [.append name plain]) (hdeclared : r.elements?.isSome = true)
    (hlen : r.elements.length < UInt64.size) :
    ∃ s, Effect.performAll ((append name plain).instrs array.word) w
        = (.ok (), { w with store := s }) ∧
      Workspace.Shows { w with store := s } array.text uses
        (r.act (.append name plain)).contents := by
  have hholds := hw.holds hcovers.header fun i hi => hcovers.element i (Nat.lt_add_right _ hi)
  obtain ⟨_ | els, given⟩ := r
  · cases hdeclared
  have heffect : Effect.append .append .struct name.word array.text w
      = (.ok (), (w.written (.element array.text els.length) name.word).written
        (.ofName array.text) (Header.encode ⟨.struct, .ofNat (els.length + 1)⟩)) := by
    rw [← List.length_map (f := Name.word)]
    exact ArrayOp.agrees_append .struct name.word hholds (by rwa [List.length_map])
  refine ⟨_, Act.bind_of_ok ((Act.bind_of_ok (array.name_apply _ w) _).trans
    (Act.bind_of_ok heffect _)) _, ?_⟩
  have hfirst : (w.written (.element array.text els.length) name.word).Shows array.text uses
      (fun p => if p = .element els.length then name.word
        else Records.contents ⟨some els, given⟩ p) :=
    hw.written hapart (hcovers.element els.length (Nat.lt_succ_self _)) (if_pos rfl)
      fun q hq => if_neg hq
  refine hfirst.written hapart hcovers.header ?_ fun q hq => ?_
  · show Header.encode ⟨.struct, .ofNat (els ++ [name]).length⟩ = _
    rw [List.length_append]
    rfl
  · cases q with
    | header => exact absurd rfl hq
    | element i =>
      refine (Records.contents_concat els given name i).trans ?_
      simp only [RecordPlace.element.injEq]
    | value | kind => rfl

/-- **One operation** leaves the records that it makes. -/
theorem performAll_op (hw : w.Shows array.text uses r.contents)
    (hapart : RecordPlace.Apart array.text uses) (hcovers : Covers uses r [op])
    (hdeclared : ∀ name plain, op = .append name plain → r.elements?.isSome = true)
    (hlen : r.elements.length < UInt64.size) :
    ∃ s, Effect.performAll (op.instrs array.word) w = (.ok (), { w with store := s }) ∧
      Workspace.Shows { w with store := s } array.text uses (r.act op).contents := by
  cases op with
  | define owner fields few =>
    have hfield := hcovers.field
    rw [List.flatMap_singleton] at hfield
    obtain ⟨s, hs, hshows⟩ := Effect.storeFields_assignments _ hw hapart hfield
    refine ⟨s, ?_, hshows⟩
    rw [assignments, List.map_map] at hs
    exact Act.bind_of_ok (Act.bind_of_ok hs _) _
  | declare => exact performAll_declare hw hapart hcovers
  | append name plain => exact performAll_append hw hapart hcovers (hdeclared _ _ rfl) hlen

/-- **A sequence of operations** leaves the records that it makes. -/
theorem performAll_instrs (hw : w.Shows array.text uses r.contents)
    (hapart : RecordPlace.Apart array.text uses) (hcovers : Covers uses r ops)
    (hdeclares : Declares r.elements?.isSome ops)
    (hlen : r.elements.length + (ops.flatMap appended).length < UInt64.size) :
    ∃ s, Effect.performAll (ops.flatMap (instrs array.word)) w = (.ok (), { w with store := s }) ∧
      Workspace.Shows { w with store := s } array.text uses
        (ops.foldl Records.act r).contents := by
  induction ops generalizing r w with
  | nil => exact ⟨w.store, rfl, hw⟩
  | cons op ops ih =>
    rw [List.flatMap_cons, List.length_append, ← Nat.add_assoc] at hlen
    have hdeclared : ∀ name plain, op = .append name plain → r.elements?.isSome = true := by
      rintro name plain rfl
      exact hdeclares.1
    obtain ⟨s, hs, hshows⟩ := performAll_op hw hapart hcovers.head hdeclared (by omega)
    have hlen' : (r.act op).elements.length + (ops.flatMap appended).length < UInt64.size := by
      rwa [r.elements_act, List.length_append]
    obtain ⟨s', hs', hshows'⟩ := ih hshows hcovers.tail hdeclares.tail hlen'
    refine ⟨s', ?_, hshows'⟩
    rw [List.flatMap_cons, Effect.performAll_append]
    exact (Act.bind_of_ok hs _).trans hs'

end RecordOp

end Proviso
