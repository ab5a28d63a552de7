import Proviso.Machine.Handler

/-!
# Handlers read what the table says

The table of opcodes lists the operands of each, and every handler reads its operands by itself.
Here the two are shown to agree: a step of the machine is the step that reads a whole instruction by
the table, with the checks that execution makes, and then carries it out
(`Machine.step_eq_decoded`).

A reader of bytes becomes an act on the machine by `Machine.decoding`, which goes through binds
(`decoding_bind`); so a list of operands is read one operand after another, and each is what one of
the machine's own reads gives. What a handler looks up between two reads can as well be looked up
after both (`look_bind_readOctets`). Only struct fields are stored between the reads; a reader that
breaks off keeps the fields it has read, and these are the ones stored.
-/

namespace Proviso

namespace Machine

variable {σ α β : Type}

/-- Goes on as an instruction said. -/
def follow (limit : Nat) : Control Nat → Act Fault Program Unit
  | .next         => return ()
  | .enter target => Program.enter limit target
  | .leave        => Program.leave

variable [Store σ]

/-- Reads from the machine's position on. A struct instruction that breaks off stores the fields
that were read. -/
def decoding (r : Array UInt8 → Reader α) : Act Fault (Machine σ) α := fun m =>
  match r m.program.code m.program.pc with
  | (.ok a, pc)    => (.ok a, { m with program := m.program.moveTo pc })
  | (.error e, pc) =>
      (.error e.fault,
        { m with
          program := m.program.moveTo pc
          work := (Effect.storeFields e.fields m.work).2 })

/-- Carries an instruction out and goes on as it says. -/
def carryOut (i : Instr Nat) : Act Fault (Machine σ) Unit := do
  let c ← onWork i.perform
  let limit ← Act.look maxCalls
  onProgram (follow limit c)

/-- One instruction, read whole and then carried out. -/
def decoded : Act Fault (Machine σ) Unit := do
  let i ← decoding fun code => decodeAt Reader.runnable code
  carryOut i

/-! ### Reads of the machine as readers -/

section Decoding

variable {r : Array UInt8 → Reader α} {m : Machine σ} {pc : Nat}

/-- A reading that succeeds moves the program behind what it read. -/
theorem decoding_of_ok {a : α} (h : r m.program.code m.program.pc = (.ok a, pc)) :
    decoding r m = (.ok a, { m with program := m.program.moveTo pc }) := by
  rw [decoding, h]

/-- A reading that fails stops the program where it failed. -/
theorem decoding_of_error {e : ReadFailure} (h : r m.program.code m.program.pc = (.error e, pc)) :
    decoding r m
      = (.error e.fault,
        { m with
          program := m.program.moveTo pc
          work := (Effect.storeFields e.fields m.work).2 }) := by
  rw [decoding, h]

end Decoding

theorem decoding_orFail (f : Fault) (o : Option α) :
    (decoding fun _ => Act.orFail ⟨f, []⟩ o : Act Fault (Machine σ) α) = Act.orFail f o := by
  cases o <;> rfl

/-- Reading one thing after another. -/
theorem decoding_bind (r : Array UInt8 → Reader α) (f : α → Array UInt8 → Reader β) :
    (decoding fun code => r code >>= fun a => f a code : Act Fault (Machine σ) β)
      = decoding r >>= fun a => decoding (f a) := by
  funext m
  rw [Act.bind_apply, decoding, decoding, Act.bind_apply]
  rcases r m.program.code m.program.pc with ⟨e | a, pc⟩ <;> rfl

/-- The machine takes bytes as a reader does. -/
theorem decoding_octets (n : Nat) :
    (decoding fun code => Reader.octets code n : Act Fault (Machine σ) (Octets n))
      = readOctets n := by
  funext m
  rw [decoding, readOctets, onProgram, Act.within, Reader.octets, Program.read]
  by_cases h : m.program.pc + n ≤ m.program.code.size
  · rw [dif_pos h, dif_pos h]
  · rw [dif_neg h, dif_neg h]
    rfl

theorem decoding_byte :
    (decoding fun code => Reader.byte code : Act Fault (Machine σ) UInt8) = readByte := by
  have hbyte : (fun code => Reader.byte code)
      = fun code => Reader.octets code 1 >>= fun bs => pure bs.head :=
    funext Reader.byte_eq
  rw [hbyte, decoding_bind, decoding_octets]
  rfl

theorem decoding_kind (op : Opcode) :
    (decoding fun code => Reader.kind code op : Act Fault (Machine σ) ValueKind)
      = readKind op := by
  unfold Reader.kind
  rw [decoding_bind, decoding_byte, readKind]
  exact bind_congr fun c => decoding_orFail _ _

theorem decoding_field (op : Opcode) :
    (decoding fun code => Reader.field code op : Act Fault (Machine σ) Field) = do
      let slot ← readSlot
      let kind ← readKind op
      let value ← readWord
      return ⟨slot, kind, value⟩ := by
  refine (decoding_bind _ _).trans ?_
  rw [decoding_octets]
  refine bind_congr fun slot => (decoding_bind _ _).trans ?_
  rw [decoding_kind]
  refine bind_congr fun kind => (decoding_bind _ _).trans ?_
  rw [decoding_octets]
  rfl

/-! ### Operands -/

/-- An operand of a kind, as the machine's own reads give it. A name comes as the word that spells
it. -/
def readOperand (op : Opcode) : (k : OperandKind) → Act Fault (Machine σ) (Operand Nat k)
  | .variant => readVariant op
  | .slot    => readSlot
  | .int     => readInteger
  | .flag    => readFlag
  | .account => readAccount
  | .word    => readWord
  | .label   => readLabel
  | .name    => do
    let w ← readWord
    if (nameText? w).isSome then return w else Act.fail (.badName op)
  | .value   => do
    let kind ← readKind op
    let value ← readWord
    return (kind, value)
  | .fields  => decoding fun code => Reader.operand code op .fields

omit [Store σ] in
/-- A check finds a fault or lets the operand pass. -/
theorem checked_ite (p : Prop) [Decidable p] (f : Fault) (a : α) :
    (match if p then none else some f with
      | some f => Act.fail f
      | none   => pure a : Act Fault (Machine σ) α) = if p then pure a else Act.fail f := by
  by_cases h : p
  · rw [if_pos h, if_pos h]
  · rw [if_neg h, if_neg h]

/-- An operand that the table asks for, checked at once, is what the machine reads. -/
theorem decoding_operand_checked (op : Opcode) (k : OperandKind) :
    (do
      let a ← decoding fun code => Reader.operand code op k
      match Reader.runnable op k a with
      | some f => Act.fail f
      | none   => return a : Act Fault (Machine σ) (Operand Nat k)) = readOperand op k := by
  cases k with
  | variant =>
    show decoding (fun code => Reader.kind code op) >>= _ = readKind op >>= _
    rw [decoding_kind]
    exact bind_congr fun kind => checked_ite _ _ _
  | name =>
    show decoding (fun code => Reader.octets code 32) >>= _ = readOctets 32 >>= _
    rw [decoding_octets]
    exact bind_congr fun w => checked_ite _ _ _
  | slot | account | word => exact (bind_pure _).trans (decoding_octets _)
  | int | label =>
    refine (bind_pure _).trans ((decoding_bind _ _).trans ?_)
    rw [decoding_octets]
    rfl
  | flag =>
    refine (bind_pure _).trans ((decoding_bind _ _).trans ?_)
    rw [decoding_byte]
    rfl
  | value =>
    refine (bind_pure _).trans ((decoding_bind _ _).trans ?_)
    rw [decoding_kind]
    refine bind_congr fun kind => (decoding_bind _ _).trans ?_
    rw [decoding_octets]
    rfl
  | fields => exact bind_pure _

/-- Reads one operand for each parameter, and goes on with them. -/
def withOperands (op : Opcode) : (ps : List Param) →
    (Operands Nat ps → Act Fault (Machine σ) β) → Act Fault (Machine σ) β
  | [],      k => k ()
  | p :: ps, k => do
    let a ← readOperand op p.kind
    withOperands op ps fun as => k (a, as)

/-- The reader of the table takes the operands one after another, as the machine does. -/
theorem decoding_operands_bind (op : Opcode) (ps : List Param)
    (k : Operands Nat ps → Act Fault (Machine σ) β) :
    ((decoding fun code => Reader.operands code Reader.runnable op ps) >>= k)
      = withOperands op ps k := by
  induction ps with
  | nil => rfl
  | cons p ps ih =>
    rw [withOperands, ← decoding_operand_checked, bind_assoc]
    refine (congrArg (· >>= k) (decoding_bind _ _)).trans ((bind_assoc _ _ _).trans ?_)
    refine bind_congr fun a => ?_
    cases Reader.runnable op p.kind a with
    | some f => rfl
    | none =>
      refine (congrArg (· >>= k) (decoding_bind _ _)).trans ((bind_assoc _ _ _).trans ?_)
      exact ih fun as => k (a, as)

/-! ### Handlers -/

section Work

omit [Store σ]

/-- Effects one after another are so on the machine. -/
theorem onWork_bind (x : Effect σ α) (f : α → Effect σ β) :
    onWork (x >>= f) = onWork x >>= fun a => onWork (f a) := by
  funext m
  rw [Act.bind_apply, onWork, Act.within, Act.bind_apply, onWork, Act.within]
  rcases x m.work with ⟨e | a, w⟩ <;> rfl

/-- What is looked up before a read can as well be looked up after it. -/
theorem look_bind_readOctets (f : Workspace σ → α) (n : Nat)
    (k : α → Octets n → Act Fault (Machine σ) β) :
    (onWork (Act.look f) >>= fun a => readOctets n >>= k a)
      = readOctets n >>= fun bs => onWork (Act.look f) >>= fun a => k a bs := by
  funext m
  show (readOctets n >>= k (f m.work)) m = (readOctets n >>= fun bs => _) m
  rw [Act.bind_apply, Act.bind_apply]
  rcases hr : (readOctets n : Act Fault (Machine σ) _) m with ⟨e | bs, m'⟩
  · rfl
  · have hw : m'.work = m.work := by
      rw [readOctets, onProgram, Act.within] at hr
      exact congrArg (fun r => r.2.work) hr.symm
    show k (f m.work) bs m' = k (f m'.work) bs m'
    rw [hw]

theorem look_bind_apply (f : Workspace σ → α) (k : α → Act Fault (Machine σ) β) (m : Machine σ) :
    (onWork (Act.look f) >>= k) m = k (f m.work) m :=
  rfl

/-- A word that spells a name gives it. -/
theorem name_of_text {op : Opcode} {w : Word} {name : String} (h : nameText? w = some name) :
    (Effect.name op w : Effect σ String) = pure name := by
  rw [Effect.name, h]
  rfl

end Work

/-- Where an instruction does not branch, what it does is all that carrying it out does. -/
theorem onWork_apply_eq_carryOut {i : Instr Nat} {x : Effect σ Unit} {m : Machine σ}
    (h : i.perform m.work = (x >>= fun _ => pure .next) m.work) : onWork x m = carryOut i m := by
  rw [carryOut, Act.bind_apply, onWork, onWork, Act.within, Act.within, h, Act.bind_apply]
  rcases x m.work with ⟨f | _, w⟩ <;> rfl

theorem onWork_eq_carryOut {i : Instr Nat} {x : Effect σ Unit}
    (h : i.perform = x >>= fun _ => pure .next) : onWork x = carryOut i :=
  funext fun _ => onWork_apply_eq_carryOut (congrFun h _)

/-- So it is where the handler does it in two parts. -/
theorem onWork_bind_eq_carryOut {i : Instr Nat} {x : Effect σ α} {f : α → Effect σ Unit}
    (h : i.perform = x >>= fun a => f a >>= fun _ => pure .next) :
    (onWork x >>= fun a => onWork (f a)) = carryOut i := by
  rw [← onWork_bind]
  exact onWork_eq_carryOut (h.trans (bind_assoc _ _ _).symm)

/-- So it is where the handler has the text of a name, and the instruction the word. -/
theorem onWork_eq_carryOut_of_name {i : Instr Nat} {w : Word} {name : String}
    {x : String → Effect σ Unit} (hw : nameText? w = some name)
    (h : i.perform = Effect.name i.opcode w >>= fun s => x s >>= fun _ => pure .next) :
    onWork (x name) = carryOut i := by
  refine onWork_eq_carryOut (h.trans ?_)
  rw [name_of_text hw, pure_bind]

/-- What the table says of an opcode: its operands, one after another, and then the instruction. -/
def tabled (op : Opcode) : Act Fault (Machine σ) Unit :=
  withOperands op op.params fun as => carryOut ⟨op, as⟩

/-- The handler of comparisons reads and does what the table says. -/
theorem comparison_eq {op : Opcode} (h : op.category = .comparison) :
    (comparison op : Act Fault (Machine σ) Unit) = tabled op := by
  cases op with
  | compare c => exact onWork_eq_carryOut rfl
  | _ => cases h

theorem logical_eq {op : Opcode} (h : op.category = .logical) :
    (logical op : Act Fault (Machine σ) Unit) = tabled op := by
  cases op with
  | connect c => exact onWork_eq_carryOut rfl
  | compute a => exact onWork_eq_carryOut rfl
  | not => exact onWork_bind_eq_carryOut rfl
  | _ => cases h

/-- The handler of branches reads each label before it takes the flag. -/
theorem branching_eq {op : Opcode} (h : op.category = .branching) :
    (branching op : Act Fault (Machine σ) Unit) = tabled op := by
  cases op with
  | ifThen =>
    simp only [branching, tabled, withOperands, readOperand]
    refine bind_congr fun target => ?_
    rw [carryOut, Instr.perform, onWork_bind, bind_assoc]
    refine bind_congr fun flag => ?_
    cases flag <;> rfl
  | ifElse =>
    simp only [branching, tabled, withOperands, readOperand]
    refine bind_congr fun good => bind_congr fun bad => ?_
    rw [carryOut, Instr.perform, onWork_bind, bind_assoc]
    refine bind_congr fun flag => ?_
    cases flag <;> rfl
  | call => rfl
  | close => rfl
  | _ => cases h

/-- The handler of loads and stores reads the kind, the slot and, for another account, its
address. -/
theorem storage_eq {op : Opcode} (h : op.category = .storage) :
    (storage op : Act Fault (Machine σ) Unit) = tabled op := by
  cases op with
  | loadLocal =>
    simp only [storage, tabled, withOperands, readOperand]
    refine bind_congr fun kind => bind_congr fun slot => ?_
    exact onWork_bind_eq_carryOut rfl
  | loadRemote =>
    simp only [storage, tabled, withOperands, readOperand]
    refine bind_congr fun kind => bind_congr fun slot => bind_congr fun account => ?_
    exact onWork_bind_eq_carryOut rfl
  | set s =>
    simp only [storage, tabled, withOperands, readOperand]
    refine bind_congr fun slot => ?_
    exact onWork_bind_eq_carryOut rfl
  | _ => cases h

/-- Accounts and amounts are looked up between the reads, which makes no difference. -/
theorem transfer_eq {op : Opcode} (h : op.category = .transfer) :
    (transfer op : Act Fault (Machine σ) Unit) = tabled op := by
  cases op with
  | sendNative | balanceOf =>
    simp only [transfer, tabled, withOperands, readOperand, readParty, readInteger, readSlot,
      Effect.self, Effect.party_eq, bind_assoc, pure_bind, look_bind_readOctets]
    refine bind_congr fun _ => bind_congr fun _ => funext fun m => ?_
    simp only [look_bind_apply]
    exact onWork_apply_eq_carryOut rfl
  | transfer | transferVar | allowance | mint | burn =>
    simp only [transfer, tabled, withOperands, readOperand, readParty, readAmount, readInteger,
      readSlot, Effect.self, Effect.party_eq, Effect.loadLocal, bind_assoc, pure_bind,
      reduceCtorEq, if_false, if_true, look_bind_readOctets]
    refine bind_congr fun _ => bind_congr fun _ => bind_congr fun _ => funext fun m => ?_
    simp only [look_bind_apply]
    exact onWork_apply_eq_carryOut rfl
  | transferFrom =>
    simp only [transfer, tabled, withOperands, readOperand, readParty, readInteger, readSlot,
      Effect.self, Effect.party_eq, bind_assoc, pure_bind, look_bind_readOctets]
    refine bind_congr fun _ => bind_congr fun _ => bind_congr fun _ => bind_congr fun _ =>
      funext fun m => ?_
    simp only [look_bind_apply]
    exact onWork_apply_eq_carryOut rfl
  | _ => cases h

/-- A name is checked when it is read; the text that it spells is what is used afterwards. -/
theorem readName_bind_eq {op : Opcode} {k : String → Act Fault (Machine σ) β}
    {k' : Word → Act Fault (Machine σ) β}
    (h : ∀ w name, nameText? w = some name → k name = k' w) :
    readName op >>= k = readOperand op .name >>= k' := by
  rw [readName, readOperand, bind_assoc, bind_assoc]
  refine bind_congr fun w => ?_
  cases hw : nameText? w with
  | none => rfl
  | some name => exact h w name hw

/-- The fields behind a field, as the reader of the table takes them: if one breaks off, the field
before it is among those that were read. -/
def behindField (f : Field) (r : Reader (List Field)) : Reader (List Field) := do
  let fs ← r.mapError fun e => ⟨e.fault, f :: e.fields⟩
  return f :: fs

/-- A field is stored before the others are read, or with them. -/
theorem decoding_behindField (f : Field) (r : Array UInt8 → Reader (List Field)) :
    ((decoding fun code => behindField f (r code)) >>= fun fs => onWork (Effect.storeFields fs))
      = (do
        onWork (Effect.storeLocal f.slot f.value)
        onWork (Effect.storeLocal f.slot.kindTag (kindWord f.kind))
        let fs ← decoding r
        onWork (Effect.storeFields fs) : Act Fault (Machine σ) Unit) := by
  funext m
  rw [Act.bind_apply, decoding, behindField, Act.bind_apply, Act.mapError]
  show _ = (decoding r >>= fun fs => onWork (Effect.storeFields fs)) { m with work := _ }
  rw [Act.bind_apply, decoding]
  dsimp only
  rcases r m.program.code m.program.pc with ⟨e | fs, pc⟩ <;> rfl

/-- Struct fields are stored as they are read. -/
theorem defineFields_eq (op : Opcode) (n : Nat) :
    (defineFields op n : Act Fault (Machine σ) Unit)
      = (decoding fun code => Reader.fieldList code op n) >>= fun fs =>
        onWork (Effect.storeFields fs) := by
  induction n with
  | zero => rfl
  | succ n ih =>
    have hread : (decoding fun code => Reader.fieldList code op (n + 1)
        : Act Fault (Machine σ) (List Field))
        = (decoding fun code => Reader.field code op) >>= fun f =>
          decoding fun code => behindField f (Reader.fieldList code op n) :=
      decoding_bind _ _
    rw [hread, decoding_field, defineFields]
    simp only [bind_assoc, pure_bind, decoding_behindField, ih]

/-- The handler of collections reads names where it needs them; a name that is no text fails there
as it does by the table. -/
theorem collections_eq {op : Opcode} (h : op.category = .collections) :
    (collections op : Act Fault (Machine σ) Unit) = tabled op := by
  cases op with
  | declare =>
    refine bind_congr (x := readVariant _) fun kind => readName_bind_eq fun w name hw => ?_
    exact onWork_eq_carryOut_of_name hw rfl
  | append =>
    show _ = (readKind _ >>= _) >>= _
    rw [bind_assoc]
    refine bind_congr (x := readKind _) fun kind => ?_
    rw [bind_assoc]
    refine bind_congr (x := readWord) fun value => readName_bind_eq fun w name hw => ?_
    exact onWork_eq_carryOut_of_name hw rfl
  | element =>
    refine bind_congr (x := readInteger) fun index => readName_bind_eq fun w name hw => ?_
    exact onWork_eq_carryOut_of_name hw rfl
  | sum =>
    refine readName_bind_eq fun w name hw => ?_
    exact onWork_eq_carryOut_of_name hw rfl
  | fieldSum =>
    refine readName_bind_eq fun w array hw => readName_bind_eq fun w' field hw' => ?_
    refine onWork_eq_carryOut_of_name hw' ?_
    rw [Instr.perform, name_of_text hw, pure_bind]
  | length =>
    refine readName_bind_eq fun w name hw => ?_
    exact onWork_eq_carryOut_of_name hw rfl
  | struct =>
    have hread : (readOperand .struct .fields : Act Fault (Machine σ) (List Field))
        = readByte >>= fun count =>
          decoding fun code => Reader.fieldList code .struct count.toNat := by
      rw [← decoding_byte, ← decoding_bind]
      rfl
    show _ = readOperand .struct .fields >>= _
    rw [hread, bind_assoc]
    refine bind_congr (x := readByte) fun count => (defineFields_eq _ _).trans ?_
    exact bind_congr fun fs => onWork_eq_carryOut rfl
  | endStruct => rfl
  | _ => cases h

theorem environment_eq {op : Opcode} (h : op.category = .environment) :
    (environment op : Act Fault (Machine σ) Unit) = tabled op := by
  cases op with
  | literal s =>
    cases s with
    | integer => exact bind_congr (x := readInteger) fun v => onWork_eq_carryOut rfl
    | flag => exact bind_congr (x := readFlag) fun b => onWork_eq_carryOut rfl
    | account => exact bind_congr (x := readAccount) fun a => onWork_eq_carryOut rfl
    | word => exact bind_congr (x := readWord) fun w => onWork_eq_carryOut rfl
  | read r => exact onWork_bind_eq_carryOut rfl
  | _ => cases h

/-- **A handler reads what the table says.** The handler of its family reads the operands that the
table lists for an opcode, in that order, and does what the instruction does. -/
theorem dispatch_eq (op : Opcode) :
    (dispatch op.category op : Act Fault (Machine σ) Unit) = tabled op := by
  cases h : op.category with
  | comparison => exact comparison_eq h
  | logical => exact logical_eq h
  | branching => exact branching_eq h
  | storage => exact storage_eq h
  | transfer => exact transfer_eq h
  | collections => exact collections_eq h
  | environment => exact environment_eq h

/-! ### Steps -/

/-- The registry of the whole instruction set knows the bytes that are opcodes. -/
theorem standard_byCode? (c : UInt8) :
    Registry.standard.byCode? c = (Opcode.ofCode? c).map Entry.ofOpcode := by
  rw [Registry.byCode?, Registry.standard, List.find?_map, Opcode.ofCode?]
  rfl

/-- **Steps read whole instructions.** A step is what reading an instruction by the table and then
carrying it out is. -/
theorem step_eq_decoded : (step : Act Fault (Machine σ) Unit) = decoded := by
  funext m
  have hread : decoded m
      = ((decoding fun code => Reader.byte code >>= fun c =>
          Reader.instrOf code Reader.runnable m.program.pc c) >>= carryOut) m := rfl
  rw [hread, decoding_bind, decoding_byte, bind_assoc]
  refine congrFun (bind_congr (x := readByte) fun c => ?_) m
  rw [standard_byCode?]
  cases hc : Opcode.ofCode? c with
  | none =>
    unfold Reader.instrOf
    rw [hc]
    rfl
  | some op =>
    unfold Reader.instrOf
    rw [hc]
    refine (dispatch_eq op).trans (Eq.symm ?_)
    rw [decoding_bind, bind_assoc]
    exact decoding_operands_bind op op.params _

section Step

variable {m : Machine σ} {i : Instr Nat} {pc : Nat} {w : Workspace σ}

/-- What was read whole is carried out from behind it. -/
theorem step_of_decode_ok
    (hd : decodeAt Reader.runnable m.program.code m.program.pc = (.ok i, pc)) :
    m.step = carryOut i { m with program := m.program.moveTo pc } := by
  rw [step_eq_decoded, decoded, Act.bind_of_ok (decoding_of_ok hd)]

/-- Where no instruction can be read, the step fails, and stores what it has read of a struct. -/
theorem step_of_decode_error {e : ReadFailure}
    (hd : decodeAt Reader.runnable m.program.code m.program.pc = (.error e, pc)) :
    m.step = (.error e.fault,
      { m with
        program := m.program.moveTo pc
        work := (Effect.storeFields e.fields m.work).2 }) := by
  rw [step_eq_decoded, decoded, Act.bind_of_error (decoding_of_error hd)]

/-- A step at an instruction that fails has read it whole. -/
theorem step_of_perform_error {f : Fault}
    (hd : decodeAt Reader.runnable m.program.code m.program.pc = (.ok i, pc))
    (hp : i.perform m.work = (.error f, w)) :
    m.step = (.error f, { m with program := m.program.moveTo pc, work := w }) := by
  have hwork : onWork i.perform { m with program := m.program.moveTo pc }
      = (.error f, { m with program := m.program.moveTo pc, work := w }) := by
    rw [onWork, Act.within, hp]
  rw [step_of_decode_ok hd, carryOut, Act.bind_of_error hwork]

/-- A step at an instruction that succeeds goes on from behind it as it says. -/
theorem step_of_perform_ok {c : Control Nat}
    (hd : decodeAt Reader.runnable m.program.code m.program.pc = (.ok i, pc))
    (hp : i.perform m.work = (.ok c, w)) :
    m.step = ((follow m.maxCalls c (m.program.moveTo pc)).1,
      { m with program := (follow m.maxCalls c (m.program.moveTo pc)).2, work := w }) := by
  have hwork : onWork i.perform { m with program := m.program.moveTo pc }
      = (.ok c, { m with program := m.program.moveTo pc, work := w }) := by
    rw [onWork, Act.within, hp]
  rw [step_of_decode_ok hd, carryOut, Act.bind_of_ok hwork]
  rfl

end Step

end Machine

end Proviso
