import Proviso.Proofs.ControlFlow
import Proviso.Proofs.Primitives
import Proviso.Proofs.Requests
import Proviso.Proofs.Stores

/-!
# The footprint of a program

What an assembled program can write is seen in its instructions: the slots of the variables that it
sets, of the fields of its structs and their kinds, and of the arrays that it declares or appends
to. It changes no other slot of its own account and none of another account, at any point of a run
and however the run ends (`Machine.assembled_writes_in_footprint`).

A step that fails has written nothing (`Machine.store_of_failed_step`). An instruction makes all its
checks before its first write (`Instr.atomic_perform`). What is left is a struct that breaks off
while its fields are read, which stores those before: in an assembled program no struct does, since
every instruction stands there with all its bytes (`Program.OnTrack.decodeAt_cases`).
-/

namespace Proviso

variable {σ L M : Type} [Store σ]

/-! ### Changes to storage -/

/-- The workspace after a write to a local slot. -/
def Workspace.written (w : Workspace σ) (k : Slot) (v : Word) : Workspace σ :=
  { w with store := Store.put w.store w.account k v }

/-- A written word is read from its slot, and no other slot changes. -/
@[simp] theorem Workspace.locals_written [LawfulStore σ] (w : Workspace σ) (k : Slot) (v : Word)
    (j : Slot) : (w.written k v).locals j = if k = j then v else w.locals j := by
  show Store.load (Store.put w.store w.account k v) w.account j = _
  rw [Store.load_put]
  by_cases h : k = j
  · rw [if_pos (by rw [h]), if_pos h]
  · rw [if_neg fun he => h (Prod.mk.inj he).2, if_neg h]
    rfl

/-- From `w` to `w'` no slots change but local ones in `writes`. -/
structure Workspace.ChangesOnly (writes : Slot → Prop) (w w' : Workspace σ) : Prop where
  account : w'.account = w.account
  store {b : Address} {k : Slot} (h : Store.get? w'.store b k ≠ Store.get? w.store b k) :
    b = w.account ∧ writes k

namespace Workspace.ChangesOnly

variable {writes writes' : Slot → Prop} {w w₁ w' : Workspace σ}

theorem of_eq (ha : w'.account = w.account) (hs : w'.store = w.store) :
    w.ChangesOnly writes w' :=
  ⟨ha, fun h => absurd (by rw [hs]) h⟩

/-- Two changes within the slots stay within them. -/
theorem trans (h : w.ChangesOnly writes w₁) (h' : w₁.ChangesOnly writes w') :
    w.ChangesOnly writes w' := by
  refine ⟨h'.account.trans h.account, fun {b k} hne => ?_⟩
  by_cases heq : Store.get? w'.store b k = Store.get? w₁.store b k
  · rw [heq] at hne
    exact h.store hne
  · obtain ⟨hb, hk⟩ := h'.store heq
    exact ⟨hb.trans h.account, hk⟩

/-- Changes within some slots are within more. -/
theorem mono (h : w.ChangesOnly writes w') (hw : ∀ k, writes k → writes' k) :
    w.ChangesOnly writes' w' :=
  ⟨h.account, fun hne => (h.store hne).imp_right (hw _)⟩

/-- Other accounts keep their slots. -/
theorem other (h : w.ChangesOnly writes w') {b : Address} (hb : b ≠ w.account) (k : Slot) :
    Store.get? w'.store b k = Store.get? w.store b k := by
  by_contra hne
  exact hb (h.store hne).1

/-- A slot outside keeps its word. -/
theorem locals_eq (h : w.ChangesOnly writes w') {k : Slot} (hk : ¬ writes k) :
    w'.locals k = w.locals k := by
  have hget : Store.get? w'.store w.account k = Store.get? w.store w.account k := by
    by_contra hne
    exact hk (h.store hne).2
  rw [Workspace.locals, Workspace.locals, Store.load, Store.load, h.account, hget]

/-- A write to a slot inside is such a change. -/
theorem put [LawfulStore σ] {k : Slot} (hk : writes k) (v : Word) :
    w.ChangesOnly writes { w with store := Store.put w.store w.account k v } := by
  refine ⟨rfl, fun {b j} hne => ?_⟩
  simp only [LawfulStore.get?_put] at hne
  split at hne
  · next h =>
    cases h
    exact ⟨rfl, hk⟩
  · exact absurd rfl hne

end Workspace.ChangesOnly

namespace Effect

variable {α β : Type} {writes : Slot → Prop}

/-- The effect changes no slots but local ones in `writes`, whether it succeeds or fails. -/
def Confined (writes : Slot → Prop) (x : Effect σ α) : Prop :=
  ∀ w : Workspace σ, w.ChangesOnly writes (x w).2

theorem Confined.bind {x : Effect σ α} {f : α → Effect σ β} (hx : Confined writes x)
    (hf : ∀ a, Confined writes (f a)) : Confined writes (x >>= f) := by
  intro w
  have h := hx w
  rcases hxw : x w with ⟨e | a, w₁⟩
  · rw [hxw] at h
    rwa [Act.bind_of_error hxw]
  · rw [hxw] at h
    rw [Act.bind_of_ok hxw]
    exact h.trans (hf a w₁)

/-- To be confined goes through the primitives of effects. -/
theorem congruence_confined [LawfulStore σ] (reads : Address → Slot → Prop) :
    CongruenceOn reads writes fun {α} (x : Effect σ α) (_ : Effect σ α) => Confined writes x where
  pure _ := fun _ => .of_eq rfl rfl
  fail _ := fun _ => .of_eq rfl rfl
  bind := .bind
  push _ := fun _ => .of_eq rfl rfl
  pop _ := fun _ => .of_eq rfl rfl
  popPair _ := fun _ => .of_eq rfl rfl
  locals _ := fun _ => .of_eq rfl rfl
  load _ := fun _ => .of_eq rfl rfl
  host _ := fun _ => .of_eq rfl rfl
  storeLocal hk v := fun _ => .put hk v

omit [Store σ] in
/-- A request is no matter of storage. -/
theorem request_store (op : Opcode) (call : HostCall) (w : Workspace σ) :
    (request op call w).2.account = w.account ∧ (request op call w).2.store = w.store := by
  rw [request_apply]
  split
  · exact ⟨rfl, rfl⟩
  · exact ⟨rfl, rfl⟩

end Effect

namespace Instr

/-- An instruction with a request writes nothing to storage. -/
theorem perform_store_of_demand {i : Instr L} {call : Address → (Slot → Word) → HostCall}
    (hd : i.demand? = some call) (w : Workspace σ) :
    (i.perform w).2.account = w.account ∧ (i.perform w).2.store = w.store := by
  rw [perform_snd_of_demand hd]
  exact Effect.request_store i.opcode (call w.account w.locals) w

/-- **The footprint of an instruction.** It changes no slots but the local ones that it may
write. -/
theorem confined_perform [LawfulStore σ] (i : Instr L) :
    Effect.Confined i.Writes (i.perform : Effect σ (Control L)) := by
  cases hd : i.demand? with
  | none => exact (Effect.congruence_confined i.Reads).perform hd
  | some call =>
    intro w
    obtain ⟨ha, hs⟩ := perform_store_of_demand hd w
    exact .of_eq ha hs

/-- Where an instruction writes does not depend on its labels. -/
@[simp] theorem writes_mapLabels (f : L → M) (i : Instr L) : (i.mapLabels f).Writes = i.Writes := by
  obtain ⟨op, as⟩ := i
  cases op with
  | literal s => cases s <;> rfl
  | _ => rfl

end Instr

/-! ### Instructions that fail -/

namespace Effect

variable {α β : Type}

/-- The effect leaves the store alone. -/
def Silent (x : Effect σ α) : Prop :=
  ∀ w : Workspace σ, (x w).2.store = w.store

omit [Store σ] in
theorem Silent.bind {x : Effect σ α} {f : α → Effect σ β} (hx : Silent x)
    (hf : ∀ a, Silent (f a)) : Silent (x >>= f) := by
  intro w
  have h := hx w
  rcases hxw : x w with ⟨e | a, w₁⟩
  · rw [hxw] at h
    rwa [Act.bind_of_error hxw]
  · rw [hxw] at h
    rw [Act.bind_of_ok hxw]
    exact (hf a w₁).trans h

/-- Without writes every primitive leaves the store alone. -/
theorem congruence_silent (reads : Address → Slot → Prop) :
    CongruenceOn reads (fun _ => False)
      fun {α} (x : Effect σ α) (_ : Effect σ α) => Silent x where
  pure _ := fun _ => rfl
  fail _ := fun _ => rfl
  bind := .bind
  push _ := fun _ => rfl
  pop _ := fun _ => rfl
  popPair _ := fun _ => rfl
  locals _ := fun _ => rfl
  load _ := fun _ => rfl
  host _ := fun _ => rfl
  storeLocal h := h.elim

/-- The effect leaves the store alone, or it succeeds and the next instruction follows. -/
def Atomic (x : Effect σ (Control L)) : Prop :=
  ∀ w : Workspace σ, (x w).2.store = w.store ∨ (x w).1 = .ok .next

omit [Store σ] in
/-- What leaves the store alone may come first. -/
theorem Atomic.bind {x : Effect σ α} {f : α → Effect σ (Control L)} (hx : Silent x)
    (hf : ∀ a, Atomic (f a)) : Atomic (x >>= f) := by
  intro w
  have h := hx w
  rcases hxw : x w with ⟨e | a, w₁⟩
  · rw [hxw] at h
    rw [Act.bind_of_error hxw]
    exact .inl h
  · rw [hxw] at h
    rw [Act.bind_of_ok hxw]
    exact (hf a w₁).imp_left fun hs => hs.trans h

/-- Fields can always be stored. -/
theorem storeFields_eq_ok (fs : List Field) (w : Workspace σ) :
    (storeFields fs w).1 = .ok () := by
  induction fs generalizing w with
  | nil => rfl
  | cons f fs ih => exact ih _

end Effect

namespace Instr

/-- An instruction that writes nowhere leaves the storage. -/
theorem silent_perform {i : Instr L} (hw : ∀ k, ¬ i.Writes k) :
    Effect.Silent (i.perform : Effect σ (Control L)) := by
  cases hd : i.demand? with
  | none => exact ((Effect.congruence_silent i.Reads).mono (fun _ _ h => h) hw).perform hd
  | some call => exact fun w => (perform_store_of_demand hd w).2

/-- **Checks come before writes.** An instruction leaves the store alone, or it succeeds and the
next one follows. -/
theorem atomic_perform (i : Instr L) : Effect.Atomic (i.perform : Effect σ (Control L)) := by
  have hsilent := Effect.congruence_silent (σ := σ) fun _ _ => True
  obtain ⟨op, as⟩ := i
  cases op with
  | set s => exact .bind (hsilent.popScalar _ s) fun _ _ => .inr rfl
  | struct =>
    intro w
    refine .inr ?_
    rcases hs : Effect.storeFields as.1 w with ⟨e | u, w'⟩
    · have h := Effect.storeFields_eq_ok as.1 w
      rw [hs] at h
      cases h
    · exact congrArg Prod.fst (Act.bind_of_ok hs _)
  | declare =>
    refine .bind (hsilent.orFail _ _) fun array => ?_
    rw [Effect.declare, bind_assoc]
    refine .bind (hsilent.loadLocal _) fun v => ?_
    cases Header.decode? v with
    | some h => exact .bind (hsilent.expectKind _ array h _) fun _ _ => .inr rfl
    | none => exact fun _ => .inr rfl
  | append =>
    refine .bind (hsilent.orFail _ _) fun array => ?_
    rw [Effect.append, bind_assoc]
    refine .bind (hsilent.header _ array) fun h => ?_
    rw [bind_assoc]
    exact .bind (hsilent.expectKind _ array h _) fun _ _ => .inr rfl
  | literal s => cases s <;> exact fun w => .inl (silent_perform (fun _ => id) w)
  | _ => exact fun w => .inl (silent_perform (fun _ => id) w)

end Instr

/-! ### Runs -/

/-- The local slots that the instructions of a program may write. -/
def Assembly.Writes (a : Assembly) (k : Slot) : Prop :=
  ∃ i ∈ a.instrs, i.Writes k

namespace Machine

/-- A point of a run: steps that succeed lead to it, or to a step that fails and leaves it. -/
def Passes (m m' : Machine σ) : Prop :=
  ∃ m₁, Steps m m₁ ∧ (m' = m₁ ∨ ∃ f, m₁.step = (.error f, m'))

/-- The end of a run is one of its points. -/
theorem passes_run (m : Machine σ) : m.Passes m.run.2 := by
  obtain ⟨m₁, hsteps, ⟨-, hrun⟩ | ⟨f, m', -, hs, hrun⟩⟩ := run_follows_steps m
  · exact ⟨m₁, hsteps, .inl (by rw [hrun])⟩
  · exact ⟨m₁, hsteps, .inr ⟨f, by rw [hrun, hs]⟩⟩

variable {a : Assembly} {code : List UInt8} {m m' : Machine σ}

/-- A step on track writes in the footprint, also if it fails. -/
theorem step_changesOnly [LawfulStore σ] (hl : a.Linked code) (h : m.program.OnTrack a code) :
    m.work.ChangesOnly a.Writes m.step.2.work := by
  rcases h.decodeAt_cases hl with ⟨f, pc, hd⟩ | ⟨i, hi, pc, hd⟩
  · rw [step_of_decode_error hd]
    exact .of_eq rfl rfl
  · have hw := (i.mapLabels a.offsetOf).confined_perform m.work
    rw [Instr.writes_mapLabels] at hw
    rw [step_work hd]
    exact hw.mono fun k hk => ⟨i, hi, hk⟩

/-- So does everything up to a point of a run. -/
theorem changesOnly_of_passes [LawfulStore σ] (hl : a.Linked code)
    (h : m.program.OnTrack a code) (hm : m.Passes m') : m.work.ChangesOnly a.Writes m'.work := by
  obtain ⟨m₁, hsteps, hend⟩ := hm
  have h₁ : m.work.ChangesOnly a.Writes m₁.work ∧ m₁.program.OnTrack a code := by
    refine hsteps.keeps (P := fun m₁ => m.work.ChangesOnly a.Writes m₁.work ∧
      m₁.program.OnTrack a code) ⟨.of_eq rfl rfl, h⟩ fun m₂ m₃ h₂ hs => ⟨?_, ?_⟩
    · have h₃ := step_changesOnly hl h₂.2
      rw [hs] at h₃
      exact h₂.1.trans h₃
    · exact onTrack_of_steps hl h₂.2 (.more hs (.refl m₃))
  rcases hend with rfl | ⟨f, hs⟩
  · exact h₁.1
  · have h₂ := step_changesOnly hl h₁.2
    rw [hs] at h₂
    exact h₁.1.trans h₂

/-- On track, a step that fails leaves the store as it was. -/
theorem store_of_onTrack {f : Fault} (hl : a.Linked code) (h : m.program.OnTrack a code)
    (hs : m.step = (.error f, m')) : m'.work.store = m.work.store := by
  rcases h.decodeAt_cases hl with ⟨f, pc, hd⟩ | ⟨i, -, pc, hd⟩
  · rw [step_of_decode_error hd] at hs
    cases hs
    rfl
  · have hw := (i.mapLabels a.offsetOf).atomic_perform m.work
    rcases hp : (i.mapLabels a.offsetOf).perform m.work with ⟨f | c, w⟩
    · rw [step_of_perform_error hd hp] at hs
      rw [hp] at hw
      cases hs
      exact hw.resolve_right (by rintro ⟨⟩)
    · rw [step_of_perform_ok hd hp] at hs
      rw [hp] at hw
      rcases hw with hw | hc
      · obtain ⟨-, rfl⟩ := Prod.mk.inj hs
        exact hw
      · -- the next instruction follows, and that cannot fail
        cases hc
        cases hs

/-! ### A step that fails behind one that writes -/

/-- Declares `A` as an array of flags. -/
def declareFlags : Instr Nat :=
  ⟨.declare, (.bool, ⟨0x41 :: List.replicate 31 0, rfl⟩, ())⟩

/-- Appends a number to `A`. -/
def appendSeven : Instr Nat :=
  ⟨.append, ((.uint256, .ofNat 7), ⟨0x41 :: List.replicate 31 0, rfl⟩, ())⟩

/-- The array is declared and refuses the number. -/
theorem flags_refuse_number (account : Address) (limits : Limits) (host : Host) :
    ∃ m m' : Machine Storage,
      ((fresh account limits Table.empty host).load
        (declareFlags.encode ++ appendSeven.encode).toArray).Steps m ∧
      m.step = (.error (.arrayTypeMismatch "push" "A" "bool" "uint256"), m') ∧
      m'.work = m.work ∧
      m.work.store = Table.empty.insert (account, .ofName "A") (Header.encode ⟨.bool, 0⟩) := by
  have hname : nameText? ⟨0x41 :: List.replicate 31 0, rfl⟩ = some "A" := by decide +kernel
  have hkind : ValueKind.bool ∈ Opcode.declare.variants := by decide
  let m₀ := (fresh account limits (Table.empty : Storage) host).load
    (declareFlags.encode ++ appendSeven.encode).toArray
  let w : Workspace Storage :=
    { m₀.work with store := Table.empty.insert (account, .ofName "A") (Header.encode ⟨.bool, 0⟩) }
  let m : Machine Storage := { m₀ with program := m₀.program.moveTo 34, work := w }
  have hdeclare : m₀.step = (.ok (), m) := by
    have hd : decodeAt Reader.runnable m₀.program.code m₀.program.pc = (.ok declareFlags, 34) :=
      decodeAt_encode (i := declareFlags) ⟨hkind, trivial, trivial⟩ (by decide +kernel)
        ⟨[], appendSeven.encode, rfl, rfl⟩
    have hp : declareFlags.perform m₀.work = (.ok .next, w) := by
      rw [declareFlags, Instr.perform, Effect.name, hname]
      rfl
    exact step_of_perform_ok hd hp
  have hd : decodeAt Reader.runnable m.program.code m.program.pc = (.ok appendSeven, 100) :=
    decodeAt_encode (i := appendSeven) ⟨trivial, trivial, trivial⟩ (by decide +kernel)
      ⟨declareFlags.encode, [], (List.append_nil _).symm, rfl⟩
  have hload : (Effect.loadLocal (.ofName "A") : Effect Storage Word) w
      = (.ok (Header.encode ⟨.bool, 0⟩), w) :=
    congrArg (fun v => (Except.ok (v.getD .zero), w))
      (Table.get?_insert_self Table.empty (account, Slot.ofName "A") (Header.encode ⟨.bool, 0⟩))
  have happend : (Effect.append .append .uint256 (.ofNat 7) "A" : Effect Storage Unit) w
      = (.error (.arrayTypeMismatch "push" "A" "bool" "uint256"), w) := by
    rw [Effect.append, Effect.header, bind_assoc, Act.bind_of_ok hload]
    rfl
  have hp : appendSeven.perform w
      = (.error (.arrayTypeMismatch "push" "A" "bool" "uint256"), w) := by
    rw [appendSeven, Instr.perform, Effect.name, hname, Act.orFail, pure_bind,
      Act.bind_of_error happend]
  exact ⟨m, _, .more hdeclare (.refl m), step_of_perform_error hd hp, rfl, rfl⟩

theorem assemble_flags_and_number :
    assemble ["declareArr", "bool", "A", "push", "7", "A"]
      = .ok (declareFlags.encode ++ appendSeven.encode) := by
  decide +kernel

/-! ### Assembled programs -/

/-- **Writes stay in the footprint.** At every point of the run of an assembled program, a slot that
is not as it was at first is one of the account that runs it, and one that an instruction of the
program may write. Storage of other accounts is as it was. -/
theorem assembled_writes_in_footprint [LawfulStore σ] {tokens : List Token}
    (hp : Assembly.ofTokens .standard tokens = .ok a) (hl : a.link = .ok code)
    (account : Address) (limits : Limits) (store : σ) (host : Host)
    (hm : ((fresh account limits store host).load code.toArray).Passes m) :
    (∀ b k, Store.get? m.work.store b k ≠ Store.get? store b k → b = account ∧ a.Writes k) ∧
    ∀ b, b ≠ account → ∀ k, Store.get? m.work.store b k = Store.get? store b k := by
  have h := changesOnly_of_passes (Assembly.linked_of_tokens hp hl)
    (Program.onTrack_ofCode a code) hm
  exact ⟨fun b k hne => h.store hne, fun b hb k => h.other hb k⟩

/-- Behind the step that failed the header of the array is there, and nothing of any other
account. -/
theorem assembled_writes_in_footprint_of_refusal :
    ∃ (a : Assembly) (code : List UInt8) (m : Machine Storage),
      Assembly.ofTokens .standard ["declareArr", "bool", "A", "push", "7", "A"] = .ok a ∧
      a.link = .ok code ∧
      ((fresh .zero .default Table.empty .empty).load code.toArray).Passes m ∧
      Store.get? m.work.store .zero (.ofName "A") = some (Header.encode ⟨.bool, 0⟩) ∧
      a.Writes (.ofName "A") ∧
      ∀ b, b ≠ .zero → ∀ k, Store.get? m.work.store b k = none := by
  obtain ⟨a, hp, hl⟩ := assemble_eq_ok assemble_flags_and_number
  obtain ⟨m, m', hsteps, hs, hw, hstore⟩ := flags_refuse_number .zero .default .empty
  have hm := assembled_writes_in_footprint hp hl .zero .default (Table.empty : Storage) .empty
    ⟨m, hsteps, .inr ⟨_, hs⟩⟩
  have hA : Store.get? m'.work.store .zero (.ofName "A") = some (Header.encode ⟨.bool, 0⟩) := by
    rw [hw, hstore]
    exact Table.get?_insert_self _ _ _
  have hne : Store.get? m'.work.store .zero (.ofName "A")
      ≠ Store.get? (Table.empty : Storage) .zero (.ofName "A") := by
    rw [hA]
    rintro ⟨⟩
  exact ⟨a, _, m', hp, hl, ⟨m, hsteps, .inr ⟨_, hs⟩⟩, hA, (hm.1 _ _ hne).2, hm.2⟩

/-- **Failing steps write nothing.** In a run of an assembled program, a step that fails leaves
storage as it was before the step. -/
theorem store_of_failed_step {tokens : List Token} (ha : assemble tokens = .ok code)
    (account : Address) (limits : Limits) (store : σ) (host : Host)
    (hr : ((fresh account limits store host).load code.toArray).Steps m) {f : Fault}
    (hs : m.step = (.error f, m')) : m'.work.store = m.work.store := by
  obtain ⟨a, hp, hlink⟩ := assemble_eq_ok ha
  have hl := Assembly.linked_of_tokens hp hlink
  exact store_of_onTrack hl (onTrack_of_steps hl (Program.onTrack_ofCode a code) hr) hs

/-- The number that is refused: the array keeps its header. -/
theorem store_of_failed_step_of_refusal :
    ∃ (code : List UInt8) (m m' : Machine Storage),
      assemble ["declareArr", "bool", "A", "push", "7", "A"] = .ok code ∧
      ((fresh .zero .default Table.empty .empty).load code.toArray).Steps m ∧
      m.step = (.error (.arrayTypeMismatch "push" "A" "bool" "uint256"), m') ∧
      m.work.store = Table.empty.insert (.zero, .ofName "A") (Header.encode ⟨.bool, 0⟩) ∧
      m'.work.store = m.work.store := by
  obtain ⟨m, m', hsteps, hs, -, hstore⟩ := flags_refuse_number .zero .default .empty
  exact ⟨_, m, m', assemble_flags_and_number, hsteps, hs, hstore,
    store_of_failed_step assemble_flags_and_number .zero .default Table.empty .empty hsteps hs⟩

end Machine

end Proviso
