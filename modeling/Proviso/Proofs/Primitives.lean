import Proviso.Machine.Perform

/-!
# What instructions are made of

An instruction either makes one call of the host and nothing else, or it is put together from a
few primitives that do not call the host: the operand stack, the words of local slots and of slots
elsewhere, what the host can be asked, and writes to local slots. Both halves are said once, so
that a property of effects is proved for the primitives and not for each instruction.

* `Instr.perform_of_demand`: an instruction with a call is the request for it.
* `Effect.CongruenceOn.perform`: a relation between effects that sequencing keeps holds of every
  other instruction, if it holds of the primitives as far as the instruction uses them: of slots
  elsewhere those that it reads (`Instr.Reads`), of writes those that it can make (`Instr.Writes`).
  The two sides may work on different stores; a property of effects is the case in which the second
  side is ignored.
* `Effect.Congruence.perform`: the case of a relation that holds of all reads and all writes.
-/

namespace Proviso

/-- The words in the slots of the account that is at work. -/
def Workspace.locals {σ : Type} [Store σ] (w : Workspace σ) : Slot → Word :=
  Store.load w.store w.account

variable {σ τ L : Type} [Store σ] [Store τ]

/-! ### Instructions that call the host -/

namespace Instr

/-- The call that an instruction makes, from the account that is at work and the words in its
slots; nothing for an instruction that makes none. -/
def demand? : Instr L → Option (Address → (Slot → Word) → HostCall)
  | ⟨.sendNative, (receiver, amount, ())⟩ =>
      some fun self word => .sendNative self (word receiver).toAddress amount
  | ⟨.transfer, (token, receiver, amount, ())⟩ =>
      some fun self word =>
        .tokenTransfer (word token).toAddress self (word receiver).toAddress amount
  | ⟨.transferVar, (token, receiver, amount, ())⟩ =>
      some fun self word =>
        .tokenTransfer (word token).toAddress self (word receiver).toAddress
          (word amount).toUInt256
  | ⟨.transferFrom, (token, sender, receiver, amount, ())⟩ =>
      some fun self word =>
        .tokenTransferFrom (word token).toAddress self (word sender).toAddress
          (word receiver).toAddress amount
  | ⟨.mint, (token, receiver, amount, ())⟩ =>
      some fun _ word => .mint (word token).toAddress (word receiver).toAddress amount
  | ⟨.burn, (token, holder, amount, ())⟩ =>
      some fun _ word => .burn (word token).toAddress (word holder).toAddress amount
  | _ => none

/-- An instruction with a call makes the request for it and goes on with the next one. -/
theorem perform_of_demand {i : Instr L} {call : Address → (Slot → Word) → HostCall}
    (h : i.demand? = some call) (w : Workspace σ) :
    i.perform w
      = (Effect.request i.opcode (call w.account w.locals) >>= fun _ => pure .next) w := by
  obtain ⟨op, as⟩ := i
  cases op with
  | sendNative | transfer | transferVar | transferFrom | mint | burn => cases h; rfl
  | literal s => cases s <;> cases h
  | _ => cases h

/-- What it leaves is what the request leaves. -/
theorem perform_snd_of_demand {i : Instr L} {call : Address → (Slot → Word) → HostCall}
    (h : i.demand? = some call) (w : Workspace σ) :
    (i.perform w).2 = (Effect.request i.opcode (call w.account w.locals) w).2 := by
  rw [perform_of_demand h]
  rcases hr : Effect.request i.opcode (call w.account w.locals) w with ⟨f | u, w'⟩
  · rw [Act.bind_of_error hr]
  · rw [Act.bind_of_ok hr]
    rfl

end Instr

/-! ### The slots of an instruction -/

namespace Instr

/-- The slot of a named account that an instruction reads. -/
def Reads : Instr L → Address → Slot → Prop
  | ⟨.loadRemote, (_, slot, account, ())⟩, a, k => a = account ∧ k = slot
  | _, _, _ => False

/-- The local slots that an instruction may write: that of a variable that it sets; those of the
fields of a struct and of their kinds; the header of an array that it declares or appends to, and of
the latter also the elements. -/
def Writes : Instr L → Slot → Prop
  | ⟨.set _, (slot, ())⟩, k => k = slot
  | ⟨.struct, (fields, ())⟩, k => ∃ f ∈ fields, k = f.slot ∨ k = f.slot.kindTag
  | ⟨.declare, (_, name, ())⟩, k => ∃ array, nameText? name = some array ∧ k = .ofName array
  | ⟨.append, (_, name, ())⟩, k =>
      ∃ array, nameText? name = some array ∧
        (k = .ofName array ∨ ∃ i : UInt64, k = .element array i.toNat)
  | _, _ => False

end Instr

/-! ### All other instructions -/

namespace Effect

omit [Store σ] in
/-- Acts one after another on the stack are so as effects. -/
theorem onStack_bind {α β : Type} (x : Act Fault Stack α) (f : α → Act Fault Stack β) :
    (onStack (x >>= f) : Effect σ β) = onStack x >>= fun a => onStack (f a) := by
  funext w
  rcases hx : x w.stack with ⟨e | a, s⟩
  · simp only [onStack, Act.within, Act.bind_apply, hx]
  · simp only [onStack, Act.within, Act.bind_apply, hx]

/-- A relation between effects that sequencing keeps and that holds of the primitives, requests
apart: of loads from the slots in `reads`, and of stores to the local slots in `writes`. -/
structure CongruenceOn (reads : Address → Slot → Prop) (writes : Slot → Prop)
    (R : ∀ {α : Type}, Effect σ α → Effect τ α → Prop) : Prop where
  pure {α : Type} (a : α) : R (pure a) (pure a)
  fail {α : Type} (f : Fault) : R (Act.fail f : Effect σ α) (Act.fail f)
  bind {α β : Type} {x : Effect σ α} {y : Effect τ α} {f : α → Effect σ β}
    {g : α → Effect τ β} (hx : R x y) (hf : ∀ a, R (f a) (g a)) : R (x >>= f) (y >>= g)
  push (c : Cell) : R (push c) (push c)
  pop (op : String) : R (onStack (Stack.pop op)) (onStack (Stack.pop op))
  popPair (op : String) : R (onStack (Stack.popPair op)) (onStack (Stack.popPair op))
  /-- A look at the words in local slots. -/
  locals {α : Type} {f : Workspace σ → α} {g : Workspace τ → α}
    (h : ∀ w w', w.locals = w'.locals → f w = g w') : R (Act.look f) (Act.look g)
  load {a : Address} {k : Slot} (h : reads a k) : R (load a k) (load a k)
  /-- A question to the host. -/
  host {α : Type} (f : Host → α) :
    R (Act.look fun w => f w.host) (Act.look fun w => f w.host)
  storeLocal {k : Slot} (h : writes k) (v : Word) : R (storeLocal k v) (storeLocal k v)

namespace CongruenceOn

variable {reads : Address → Slot → Prop} {writes : Slot → Prop}
  {R : ∀ {α : Type}, Effect σ α → Effect τ α → Prop}

/-- Less is asked of the primitives where fewer slots count. -/
theorem mono (hR : CongruenceOn reads writes R) {reads' : Address → Slot → Prop}
    {writes' : Slot → Prop} (hr : ∀ a k, reads' a k → reads a k)
    (hw : ∀ k, writes' k → writes k) : CongruenceOn reads' writes' R :=
  { hR with
    load := fun h => hR.load (hr _ _ h)
    storeLocal := fun h => hR.storeLocal (hw _ h) }

theorem lift (hR : CongruenceOn reads writes R) {α : Type} (r : Except Fault α) :
    R (Act.lift r) (Act.lift r) := by
  cases r with
  | ok a => exact hR.pure a
  | error f => exact hR.fail f

theorem orFail (hR : CongruenceOn reads writes R) {α : Type} (f : Fault) (o : Option α) :
    R (Act.orFail f o) (Act.orFail f o) := by
  cases o with
  | some a => exact hR.pure a
  | none => exact hR.fail f

theorem pushResult (hR : CongruenceOn reads writes R) (r : Except Fault Cell) :
    R (pushResult r) (pushResult r) :=
  hR.bind (hR.lift r) hR.push

theorem binary (hR : CongruenceOn reads writes R) (op : String)
    (f : Cell → Cell → Except Fault Cell) : R (binary op f) (binary op f) :=
  hR.bind (hR.popPair op) fun _ => hR.pushResult _

/-- A pop that looks at its cell and then gives a value or fails. -/
theorem popThen (hR : CongruenceOn reads writes R) {α : Type} (op : String)
    {f : Cell → Act Fault Stack α}
    (hf : ∀ c, (∃ a, f c = Pure.pure a) ∨ ∃ e, f c = Act.fail e) :
    R (onStack (Stack.pop op >>= f)) (onStack (Stack.pop op >>= f)) := by
  rw [onStack_bind, onStack_bind]
  refine hR.bind (hR.pop op) fun c => ?_
  rcases hf c with ⟨a, ha⟩ | ⟨e, he⟩
  · rw [ha]
    exact hR.pure a
  · rw [he]
    exact hR.fail e

theorem popFlag (hR : CongruenceOn reads writes R) (op : String) :
    R (onStack (Stack.popFlag op)) (onStack (Stack.popFlag op)) :=
  hR.popThen op fun c => by
    cases c with
    | flag b => exact .inl ⟨b, rfl⟩
    | integer | account | word | text => exact .inr ⟨_, rfl⟩

/-- A value of a given type is taken from the stack alike. -/
theorem popScalar (hR : CongruenceOn reads writes R) (op : String) (s : Scalar) :
    R (popScalar op s) (popScalar op s) := by
  cases s with
  | integer =>
    refine hR.bind (hR.popThen op fun c => ?_) fun _ => hR.pure _
    cases c with
    | integer v => exact .inl ⟨v, rfl⟩
    | flag | account | word | text => exact .inr ⟨_, rfl⟩
  | flag => exact hR.bind (hR.popFlag op) fun _ => hR.pure _
  | account =>
    refine hR.bind (hR.popThen op fun c => ?_) fun _ => hR.pure _
    cases c with
    | account a => exact .inl ⟨a, rfl⟩
    | integer | flag | word | text => exact .inr ⟨_, rfl⟩
  | word =>
    refine hR.popThen op fun c => ?_
    cases c with
    | word w => exact .inl ⟨w, rfl⟩
    | integer | flag | account | text => exact .inr ⟨_, rfl⟩

theorem loadLocal (hR : CongruenceOn reads writes R) (k : Slot) :
    R (loadLocal k) (loadLocal k) :=
  hR.locals fun _ _ h => congrFun h k

theorem party (hR : CongruenceOn reads writes R) (k : Slot) : R (party k) (party k) :=
  hR.bind (hR.loadLocal k) fun _ => hR.pure _

theorem reading (hR : CongruenceOn reads writes R) (r : Reading) :
    R (reading r) (reading r) := by
  cases r with
  | blockNumber => exact hR.host fun h => Cell.integer (.ofUInt64 h.blockNumber)
  | blockTimestamp => exact hR.host fun h => Cell.integer (.ofUInt64 h.blockTimestamp)
  | chainId => exact hR.host fun h => Cell.integer (.ofUInt64 h.chainId)
  | sender => exact hR.host fun h => Cell.account h.sender
  | value => exact hR.host fun h => Cell.integer h.value

/-! Arrays and structs -/

/-- What follows a name is carried out for the text that the operand spells, and for no other. -/
theorem named (hR : CongruenceOn reads writes R) {α : Type} (op : Opcode) (n : Word)
    {f : String → Effect σ α} {g : String → Effect τ α}
    (hf : ∀ s, nameText? n = some s → R (f s) (g s)) :
    R (name op n >>= f) (name op n >>= g) := by
  rw [Effect.name, Effect.name]
  cases hn : nameText? n with
  | some s => exact hf s hn
  | none => exact hR.fail _

theorem header (hR : CongruenceOn reads writes R) (op : Opcode) (array : String) :
    R (header op array) (header op array) :=
  hR.bind (hR.loadLocal _) fun _ => hR.orFail _ _

theorem expectKind (hR : CongruenceOn reads writes R) (op : Opcode) (array : String) (h : Header)
    (asked : ValueKind) : R (expectKind op array h asked) (expectKind op array h asked) := by
  by_cases hk : h.kind = asked
  · rw [Effect.expectKind, Effect.expectKind, if_pos hk, if_pos hk]
    exact hR.pure ()
  · rw [Effect.expectKind, Effect.expectKind, if_neg hk, if_neg hk]
    exact hR.fail _

theorem declare (hR : CongruenceOn reads writes R) (op : Opcode) (k : ValueKind) (array : String)
    (hw : writes (.ofName array)) : R (declare op k array) (declare op k array) := by
  refine hR.bind (hR.loadLocal _) fun w => ?_
  cases Header.decode? w with
  | some h => exact hR.expectKind op array h k
  | none => exact hR.storeLocal hw _

/-- An append asks for the slots of the header and of any element. -/
theorem append (hR : CongruenceOn reads writes R) (op : Opcode) (k : ValueKind) (v : Word)
    (array : String) (hw : writes (.ofName array))
    (hws : ∀ i : UInt64, writes (.element array i.toNat)) :
    R (append op k v array) (append op k v array) :=
  hR.bind (hR.header op array) fun h => hR.bind (hR.expectKind op array h k) fun _ =>
    hR.bind (hR.storeLocal (hws h.length) v) fun _ => hR.storeLocal hw _

theorem element (hR : CongruenceOn reads writes R) (op : Opcode) (index : UInt256)
    (array : String) : R (element op index array) (element op index array) := by
  refine hR.bind (hR.header op array) fun h => ?_
  by_cases hi : index.toNat < h.length.toNat
  · rw [if_pos hi, if_pos hi]
    exact hR.bind (hR.loadLocal _) fun _ => hR.pushResult _
  · rw [if_neg hi, if_neg hi]
    exact hR.fail _

theorem length (hR : CongruenceOn reads writes R) (op : Opcode) (array : String) :
    R (length op array) (length op array) :=
  hR.bind (hR.header op array) fun _ => hR.push _

/-- What is pushed from a look at local slots. -/
theorem pushFrom (hR : CongruenceOn reads writes R) {f : Workspace σ → Except Fault Cell}
    {g : Workspace τ → Except Fault Cell} (h : ∀ w w', w.locals = w'.locals → f w = g w') :
    R (Act.state >>= fun w => Effect.pushResult (f w))
      (Act.state >>= fun w => Effect.pushResult (g w)) :=
  hR.bind (hR.locals h) hR.pushResult

theorem sum (hR : CongruenceOn reads writes R) (op : Opcode) (array : String) :
    R (sum op array) (sum op array) :=
  hR.bind (hR.header op array) fun h => hR.bind (hR.expectKind op array h _) fun _ =>
    hR.pushFrom fun w w' hl => by
      have hw : ∀ k, Store.load w.store w.account k = Store.load w'.store w'.account k :=
        congrFun hl
      simp only [hw]

/-- The term of a field depends on the local words only. -/
theorem fieldTerm_congr {w : Workspace σ} {w' : Workspace τ} (hl : w.locals = w'.locals)
    (op : Opcode) (array field : String) :
    fieldTerm op w array field = fieldTerm op w' array field := by
  have hw : ∀ k, Store.load w.store w.account k = Store.load w'.store w'.account k :=
    congrFun hl
  funext i
  simp only [fieldTerm, hw]

theorem fieldSum (hR : CongruenceOn reads writes R) (op : Opcode) (array field : String) :
    R (fieldSum op array field) (fieldSum op array field) :=
  hR.bind (hR.header op array) fun h => hR.bind (hR.expectKind op array h _) fun _ =>
    hR.pushFrom fun w w' hl => by rw [fieldTerm_congr hl]

theorem storeFields (hR : CongruenceOn reads writes R) {fs : List Field}
    (hw : ∀ f ∈ fs, writes f.slot ∧ writes f.slot.kindTag) :
    R (storeFields fs) (storeFields fs) := by
  induction fs with
  | nil => exact hR.pure ()
  | cons f fs ih =>
    obtain ⟨hslot, htag⟩ := hw f List.mem_cons_self
    exact hR.bind (hR.storeLocal hslot _) fun _ => hR.bind (hR.storeLocal htag _) fun _ =>
      ih fun f' hf' => hw f' (List.mem_cons_of_mem _ hf')

/-- What sequencing keeps, and what holds of the primitives at the slots of an instruction, holds
of the instruction, if it makes no call. -/
theorem perform {i : Instr L} (hR : CongruenceOn i.Reads i.Writes R) (h : i.demand? = none) :
    R i.perform i.perform := by
  obtain ⟨op, as⟩ := i
  cases op with
  | compare | connect | compute => exact hR.bind (hR.binary _ _) fun _ => hR.pure _
  | not =>
    exact hR.bind (hR.pop _) fun _ => hR.bind (hR.pushResult _) fun _ => hR.pure _
  | ifThen | ifElse =>
    refine hR.bind (hR.popFlag _) fun b => ?_
    cases b with
    | true => exact hR.pure _
    | false => exact hR.pure _
  | call | close | endStruct => exact hR.pure _
  | loadLocal =>
    exact hR.bind (hR.loadLocal _) fun _ => hR.bind (hR.pushResult _) fun _ => hR.pure _
  | loadRemote =>
    exact hR.bind (hR.load ⟨rfl, rfl⟩) fun _ => hR.bind (hR.pushResult _) fun _ => hR.pure _
  | set s =>
    exact hR.bind (hR.popScalar _ s) fun _ => hR.bind (hR.storeLocal rfl _) fun _ => hR.pure _
  | sendNative | transfer | transferVar | transferFrom | mint | burn => cases h
  | balanceOf =>
    exact hR.bind (hR.party _) fun token => hR.bind (hR.party _) fun owner =>
      hR.bind (hR.host fun h => h.balanceOf token owner) fun _ =>
        hR.bind (hR.push _) fun _ => hR.pure _
  | allowance =>
    exact hR.bind (hR.party _) fun token => hR.bind (hR.party _) fun owner =>
      hR.bind (hR.party _) fun spender =>
        hR.bind (hR.host fun h => h.allowance token owner spender) fun _ =>
          hR.bind (hR.push _) fun _ => hR.pure _
  | declare =>
    exact hR.named _ _ fun array ha =>
      hR.bind (hR.declare _ _ array ⟨array, ha, rfl⟩) fun _ => hR.pure _
  | append =>
    refine hR.named _ _ fun array ha => hR.bind (hR.append _ _ _ array ?_ fun i => ?_)
      fun _ => hR.pure _
    · exact ⟨array, ha, .inl rfl⟩
    · exact ⟨array, ha, .inr ⟨i, rfl⟩⟩
  | element =>
    exact hR.named _ _ fun _ _ => hR.bind (hR.element _ _ _) fun _ => hR.pure _
  | sum => exact hR.named _ _ fun _ _ => hR.bind (hR.sum _ _) fun _ => hR.pure _
  | fieldSum =>
    exact hR.named _ _ fun _ _ => hR.named _ _ fun _ _ =>
      hR.bind (hR.fieldSum _ _ _) fun _ => hR.pure _
  | length => exact hR.named _ _ fun _ _ => hR.bind (hR.length _ _) fun _ => hR.pure _
  | struct =>
    refine hR.bind (hR.storeFields fun f hf => ⟨?_, ?_⟩) fun _ => hR.pure _
    · exact ⟨f, hf, .inl rfl⟩
    · exact ⟨f, hf, .inr rfl⟩
  | literal s => cases s <;> exact hR.bind (hR.push _) fun _ => hR.pure _
  | read r => exact hR.bind (hR.reading r) fun _ => hR.bind (hR.push _) fun _ => hR.pure _

end CongruenceOn

/-- A relation between effects that holds of the primitives, requests apart, and that sequencing
keeps. -/
structure Congruence (R : ∀ {α : Type}, Effect σ α → Effect τ α → Prop) : Prop where
  pure {α : Type} (a : α) : R (pure a) (pure a)
  fail {α : Type} (f : Fault) : R (Act.fail f : Effect σ α) (Act.fail f)
  bind {α β : Type} {x : Effect σ α} {y : Effect τ α} {f : α → Effect σ β}
    {g : α → Effect τ β} (hx : R x y) (hf : ∀ a, R (f a) (g a)) : R (x >>= f) (y >>= g)
  onStack {α : Type} (x : Act Fault Stack α) : R (onStack x) (onStack x)
  /-- A look at the words in local slots. -/
  locals {α : Type} {f : Workspace σ → α} {g : Workspace τ → α}
    (h : ∀ w w', w.locals = w'.locals → f w = g w') : R (Act.look f) (Act.look g)
  load (a : Address) (k : Slot) : R (load a k) (load a k)
  /-- A question to the host. -/
  host {α : Type} (f : Host → α) :
    R (Act.look fun w => f w.host) (Act.look fun w => f w.host)
  storeLocal (k : Slot) (v : Word) : R (storeLocal k v) (storeLocal k v)

namespace Congruence

variable {R : ∀ {α : Type}, Effect σ α → Effect τ α → Prop}

theorem on (hR : Congruence R) (reads : Address → Slot → Prop) (writes : Slot → Prop) :
    CongruenceOn reads writes R where
  pure := hR.pure
  fail := hR.fail
  bind := hR.bind
  push c := hR.onStack (Stack.push c)
  pop _ := hR.onStack _
  popPair _ := hR.onStack _
  locals := hR.locals
  load _ := hR.load _ _
  host := hR.host
  storeLocal _ := hR.storeLocal _

theorem storeFields (hR : Congruence R) (fs : List Field) :
    R (storeFields fs) (storeFields fs) :=
  (hR.on (fun _ _ => True) fun _ => True).storeFields fun _ _ => ⟨trivial, trivial⟩

/-- What holds of the primitives and is kept by sequencing holds of every instruction that makes
no call. -/
theorem perform (hR : Congruence R) {i : Instr L} (h : i.demand? = none) :
    R i.perform i.perform :=
  (hR.on i.Reads i.Writes).perform h

end Congruence

end Effect

end Proviso
