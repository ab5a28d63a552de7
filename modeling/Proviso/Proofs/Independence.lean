import Proviso.Proofs.Atoms
import Proviso.Proofs.Footprint
import Proviso.Proofs.Simulation

/-!
# Independence from what is not read

An assembled program reads the slots of the account that runs it, and of other accounts those that
its instructions name. So whatever else storage holds has no say in how a run ends, what it leaves
on the stack and with the host, or what it writes (`runCode_ignores_unread`). That also covers
words which choose what is read later: party addresses, names of structs and indices of arrays are
taken from local slots, and lead to local slots again.
-/

namespace Proviso

variable {σ τ L M : Type} [Store σ] [Store τ]

/-! ### Workspaces that a program cannot tell apart -/

/-- The workspaces differ at most in what other accounts keep outside `reads`. A slot in `same` was
also written in both or in neither. -/
structure Workspace.Akin (reads same : Address → Slot → Prop) (w : Workspace σ)
    (w' : Workspace τ) : Prop where
  account : w.account = w'.account
  stack : w.stack = w'.stack
  host : w.host = w'.host
  journal : w.journal = w'.journal
  locals : w.locals = w'.locals
  load {b : Address} {k : Slot} (h : reads b k) :
    Store.load w.store b k = Store.load w'.store b k
  get? {b : Address} {k : Slot} (h : same b k) :
    Store.get? w.store b k = Store.get? w'.store b k

namespace Workspace

variable {reads same : Address → Slot → Prop} {w : Workspace σ} {w' : Workspace τ}

/-- The same word in the same local slot of both keeps them akin. -/
theorem Akin.put [LawfulStore σ] [LawfulStore τ] (h : w.Akin reads same w') (k : Slot) (v : Word) :
    { w with store := Store.put w.store w.account k v }.Akin reads same
      { w' with store := Store.put w'.store w'.account k v } := by
  refine { h with locals := ?_, load := fun {b j} hr => ?_, get? := fun {b j} hs => ?_ }
  · funext j
    have hj : Store.load w.store w.account j = Store.load w'.store w'.account j :=
      congrFun h.locals j
    rw [h.account] at hj
    simp only [Workspace.locals, Store.load_put, hj, h.account]
  · simp only [Store.load_put, h.load hr, h.account]
  · simp only [LawfulStore.get?_put, h.get? hs, h.account]

/-- Akin workspaces answer alike to all that reads no slots of others but those of `reads`. -/
theorem simulation_akin [LawfulStore σ] [LawfulStore τ] :
    Simulation reads (fun _ => False) (@Akin σ τ _ _ reads same) where
  account h := h.account
  locals h := h.locals
  load h _ _ hr := h.load hr
  host h := h.host
  push _ := .onStack (fun h => h.stack) (fun h hs => { h with stack := hs }) Act.matches_of_eq
  pop _ := .onStack (fun h => h.stack) (fun h hs => { h with stack := hs }) Act.matches_of_eq
  popPair _ := .onStack (fun h => h.stack) (fun h hs => { h with stack := hs }) Act.matches_of_eq
  store k v h := h.put k v
  call _ r h := { h with host := rfl, journal := congrArg (r :: ·) h.journal }

end Workspace

/-! ### What a program reads -/

@[simp] theorem Instr.reads_mapLabels (f : L → M) (i : Instr L) :
    (i.mapLabels f).Reads = i.Reads := by
  obtain ⟨op, as⟩ := i
  cases op with
  | literal s => cases s <;> rfl
  | _ => rfl

/-- The slots of named accounts that the instructions of a program read. -/
def Assembly.Reads (a : Assembly) (b : Address) (k : Slot) : Prop :=
  ∃ i ∈ a.instrs, i.Reads b k

variable {a : Assembly} {code : List UInt8}

omit [Store σ] in
/-- A machine on track reads where an instruction of its assembly reads. -/
theorem Machine.readsIn_of_onTrack {m : Machine σ} (hl : a.Linked code)
    (h : m.program.OnTrack a code) : m.ReadsIn a.Reads := by
  intro i pc hd b k hk
  rcases h.decodeAt_cases hl with ⟨f, pc', he⟩ | ⟨j, hj, pc', he⟩
  · rw [he] at hd
    cases hd
  · rw [he] at hd
    cases hd
    rw [Instr.reads_mapLabels] at hk
    exact ⟨j, hj, hk⟩

/-! ### A program that reads another account -/

/-- Copies a number from a slot of another account. -/
def copyNumber (slot : Slot) (account : Address) (target : Slot) : List (Instr Token) :=
  [⟨.loadRemote, (.uint256, slot, account, ())⟩, ⟨.set .integer, (target, ())⟩]

open TokenReader in
/-- The program is read as a load from another account and a store. -/
theorem reads_copyNumber :
    Reads .standard
      ["loadRemote", "uint256", "x", "0x0000000000000000000000000000000000000001",
        "setUint256", "y"]
      (copyNumber (.ofName "x") (.ofNat 1) (.ofName "y")) := by
  have hload : Reads .standard
      ["loadRemote", "uint256", "x", "0x0000000000000000000000000000000000000001"]
      [⟨.loadRemote, (.uint256, .ofName "x", .ofNat 1, ())⟩] :=
    Reads.of_operands .loadRemote
      (fun r => operands_cons rfl (operands_cons rfl
        (operands_cons (reading_of_some (by decide +kernel) r) rfl)))
      (by rintro ⟨⟩)
  have hset : Reads .standard ["setUint256", "y"] [⟨.set .integer, (.ofName "y", ())⟩] :=
    Reads.of_operands (.set .integer) (fun r => operands_cons rfl rfl) (by rintro ⟨⟩)
  exact hload.append hset

/-! ### Runs -/

/-- **Independence.** Let two stores have the same words in all slots of the account that runs an
assembled program, and in the slots of other accounts that the program reads. Then both runs end
alike, with the same stack and the same host, and leave the same words in all slots of the account;
a slot of it that both had alike, or neither had written, is so again. Every other account keeps its
slots in both. -/
theorem runCode_ignores_unread [LawfulStore σ] [LawfulStore τ] {tokens : List Token}
    (hp : Assembly.ofTokens .standard tokens = .ok a) (hlink : a.link = .ok code)
    (account : Address) (limits : Limits) (host : Host) {s : σ} {t : τ}
    (hlocal : ∀ k, Store.load s account k = Store.load t account k)
    (hremote : ∀ b k, a.Reads b k → Store.load s b k = Store.load t b k) :
    let ran := runCode code account limits s host
    let ran' := runCode code account limits t host
    ran.1 = ran'.1 ∧ ran.2.work.stack = ran'.2.work.stack ∧
    ran.2.work.host = ran'.2.work.host ∧
    (∀ k, Store.load ran.2.work.store account k = Store.load ran'.2.work.store account k) ∧
    (∀ k, Store.get? s account k = Store.get? t account k →
      Store.get? ran.2.work.store account k = Store.get? ran'.2.work.store account k) ∧
    ∀ b, b ≠ account → ∀ k, Store.get? ran.2.work.store b k = Store.get? s b k ∧
      Store.get? ran'.2.work.store b k = Store.get? t b k := by
  intro ran ran'
  have hl := Assembly.linked_of_tokens hp hlink
  have htrack := Program.onTrack_ofCode a code
  let m := (Machine.fresh account limits s host).load code.toArray
  let m' := (Machine.fresh account limits t host).load code.toArray
  have hbeside : m.Beside (fun _ => False)
      (Workspace.Akin a.Reads fun b k => Store.get? s b k = Store.get? t b k) m' :=
    ⟨rfl, .inl rfl, rfl, rfl, rfl, rfl, funext hlocal, hremote _ _, id⟩
  have hs := Machine.changesOnly_of_passes hl htrack m.passes_run
  have ht := Machine.changesOnly_of_passes hl htrack m'.passes_run
  have hreads : ∀ m₁, m.Steps m₁ → m₁.ReadsIn a.Reads := fun m₁ hm₁ =>
    Machine.readsIn_of_onTrack hl (Machine.onTrack_of_steps hl htrack hm₁)
  obtain ⟨hr, hm⟩ := (Workspace.simulation_akin.run hbeside hreads).alike
  refine ⟨hr, hm.work.stack, hm.work.host, fun k => ?_, fun k hk => hm.work.get? hk,
    fun b hb k => ⟨hs.other hb k, ht.other hb k⟩⟩
  have hk := congrFun hm.work.locals k
  rw [Workspace.locals, Workspace.locals, hs.account, ht.account] at hk
  exact hk

/-- A number in a third account, which is not the one that the program reads, makes no difference
and stays where it is. -/
theorem runCode_ignores_unread_of_copy :
    let s : Storage := Table.empty.insert (.ofNat 1, .ofName "x") (.ofNat 7)
    let t := s.insert (.ofNat 2, .ofName "x") (.ofNat 8)
    ∃ (a : Assembly) (code : List UInt8),
      Assembly.ofTokens .standard
        ["loadRemote", "uint256", "x", "0x0000000000000000000000000000000000000001",
          "setUint256", "y"] = .ok a ∧
      a.link = .ok code ∧
      a.Reads (.ofNat 1) (.ofName "x") ∧
      let ran := runCode code .zero .default s .empty
      let ran' := runCode code .zero .default t .empty
      ran.1 = ran'.1 ∧ ran.2.work.stack = ran'.2.work.stack ∧
      (∀ k, Store.get? ran.2.work.store .zero k = Store.get? ran'.2.work.store .zero k) ∧
      Store.get? ran.2.work.store (.ofNat 2) (.ofName "x") = none ∧
      Store.get? ran'.2.work.store (.ofNat 2) (.ofName "x") = some (.ofNat 8) := by
  intro s t
  have hstraight : ∀ i ∈ copyNumber (.ofName "x") (.ofNat 1) (.ofName "y"), i.IsStraight := by
    rintro i (_ | ⟨_, _ | ⟨_, ⟨⟩⟩⟩) <;> exact ⟨rfl, by rintro ⟨⟩⟩
  have hlink := Assembly.link_straight hstraight (by decide)
  have hother : ∀ b, b ≠ .ofNat 2 → ∀ k, Store.get? s b k = Store.get? t b k := fun b hb k =>
    (Table.get?_insert_of_ne s (.ofNat 8) fun h => hb (Prod.mk.inj h).1.symm).symm
  have hzero : ∀ k, Store.get? s .zero k = Store.get? t .zero k := hother _ (by decide)
  have hone : ∀ k, Store.get? s (.ofNat 1) k = Store.get? t (.ofNat 1) k := hother _ (by decide)
  have hremote : ∀ b k, Assembly.Reads ⟨copyNumber (.ofName "x") (.ofNat 1) (.ofName "y"), []⟩ b k →
      Store.load s b k = Store.load t b k := by
    rintro b k ⟨i, _ | ⟨_, _ | ⟨_, ⟨⟩⟩⟩, hr⟩
    · obtain ⟨rfl, rfl⟩ := hr
      exact congrArg (·.getD .zero) (hone _)
    · exact hr.elim
  obtain ⟨hr, hstack, -, -, hlocal, hkept⟩ := runCode_ignores_unread reads_copyNumber.ofTokens hlink
    .zero .default .empty (fun k => congrArg (·.getD .zero) (hzero k)) hremote
  obtain ⟨hs, ht⟩ := hkept (.ofNat 2) (by decide) (.ofName "x")
  refine ⟨_, _, reads_copyNumber.ofTokens, hlink, ⟨_, .head _, rfl, rfl⟩, hr, hstack,
    fun k => hlocal k (hzero k), hs.trans ?_, ht.trans (Table.get?_insert_self s _ _)⟩
  exact Table.get?_insert_of_ne Table.empty _ fun h => absurd (Prod.mk.inj h).1 (by decide)

end Proviso
