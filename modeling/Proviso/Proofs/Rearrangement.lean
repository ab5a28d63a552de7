import Mathlib.Control.Monad.Basic
import Mathlib.Data.List.Nodup
import Proviso.Proofs.Blocks
import Proviso.Proofs.Listings

/-!
# The order of bodies and the names of labels

Where the bodies of a program stand and what they are called shows in every offset of its bytes, and
in nothing that the program does. An assembly with its bodies in another order and its labels
renamed links if the first one does, and the two programs run alike.

Bytes at different offsets are hard to compare with one another, so both are compared with what they
refine: the interpretation of the blocks, in which a label is a name and nothing else
(`Assembly.Rearranged.interpret_eq`). Main statement: `Assembly.rearranged_runs_alike`.
-/

namespace Proviso

/-! ### Renamed instructions -/

section Renaming

variable {L M : Type}

theorem Operand.labels_mapLabels (f : L → M) (k : OperandKind) (a : Operand L k) :
    Operand.labels k (Operand.mapLabels f k a) = (Operand.labels k a).map f := by
  cases k <;> rfl

theorem Operands.labels_mapLabels (f : L → M) (ps : List Param) (as : Operands L ps) :
    Operands.labels ps (Operands.mapLabels f ps as) = (Operands.labels ps as).map f := by
  induction ps with
  | nil => rfl
  | cons p ps ih =>
    obtain ⟨a, as⟩ := as
    rw [Operands.mapLabels, Operands.labels, Operand.labels_mapLabels, ih, Operands.labels,
      List.map_append]

/-- The labels of an instruction are renamed one by one. -/
theorem Instr.labels_mapLabels (f : L → M) (i : Instr L) :
    (i.mapLabels f).labels = i.labels.map f :=
  Operands.labels_mapLabels f i.opcode.params i.operands

theorem Closed.map {f : L → M} {is : List (Instr L)} (h : Closed is) :
    Closed (is.map (Instr.mapLabels f)) := by
  obtain ⟨before, i, rfl, hi⟩ := h
  exact ⟨before.map (Instr.mapLabels f), i.mapLabels f, by simp, hi⟩

end Renaming

/-- A block of renamed instructions does what the block does, if entering a renamed body does what
entering the body does. -/
theorem Effect.block_mapLabels {σ : Type} [Store σ] {f : Token → Token}
    {enter enter' : Token → Effect σ Unit} {is : List (Instr Token)}
    (h : ∀ i ∈ is, ∀ l ∈ i.labels, enter' (f l) = enter l) :
    block enter' (is.map (Instr.mapLabels f)) = block enter is := by
  induction is with
  | nil => rfl
  | cons i is ih =>
    obtain ⟨hi, his⟩ := List.forall_mem_cons.mp h
    rw [List.map_cons, block_cons, block_cons, Instr.perform_mapLabels, bind_map_left, ih his]
    refine i.leads_perform.bind_congr fun c hc => ?_
    cases c with
    | next | leave => rfl
    | enter l =>
      rw [Control.map, Control.within, Control.within, hi l hc]

namespace Assembly

/-- The order of instructions does not change their size. -/
theorem sizeSum_perm {is js : List (Instr Token)} (h : is.Perm js) : sizeSum is = sizeSum js := by
  induction h with
  | nil => rfl
  | cons i _ ih => exact congrArg (i.size + ·) ih
  | swap i j is => exact Nat.add_left_comm j.size i.size (sizeSum is)
  | trans _ _ ih ih' => exact ih.trans ih'

theorem sizeSum_map_mapLabels (f : Token → Token) (is : List (Instr Token)) :
    sizeSum (is.map (Instr.mapLabels f)) = sizeSum is := by
  induction is with
  | nil => rfl
  | cons i is ih =>
    rw [List.map_cons]
    exact congrArg₂ (· + ·) (i.size_mapLabels f) ih

/-- Where labels are distinct, each is that of one body. -/
theorem lookup_of_mem {bs : List (Token × List (Instr Token))} (hn : (bs.map (·.1)).Nodup)
    {b : Token × List (Instr Token)} (hb : b ∈ bs) : bs.lookup b.1 = some b.2 := by
  obtain ⟨before, behind, rfl⟩ := List.append_of_mem hb
  refine List.lookup_eq_some_iff.mpr ⟨before, behind, rfl, fun c hc => ?_⟩
  rw [List.map_append, List.nodup_append] at hn
  have hne := hn.2.2 c.1 (List.mem_map_of_mem hc) b.1 (by simp)
  simpa using hne.symm

/-! ### Rearranged assemblies -/

/-- A body under another label, with its branches renamed. -/
def renamedBody (f : Token → Token) (b : Token × List (Instr Token)) :
    Token × List (Instr Token) :=
  (f b.1, b.2.map (Instr.mapLabels f))

/-- The second assembly is the first one with its labels renamed, in bodies and branches alike, and
with its bodies in another order. Different labels have different names. -/
structure Rearranged (f : Token → Token) (a a' : Assembly) : Prop where
  main_eq : a'.main = a.main.map (Instr.mapLabels f)
  bodies_perm : a'.bodies.Perm (a.bodies.map (renamedBody f))
  distinct : ∀ l ∈ a.labels ++ a.targets, ∀ l' ∈ a.labels ++ a.targets, f l = f l' → l = l'

namespace Rearranged

variable {f : Token → Token} {a a' : Assembly}

/-- The instructions are those of the original, renamed and in another order. -/
theorem instrs_perm (h : Rearranged f a a') :
    a'.instrs.Perm (a.instrs.map (Instr.mapLabels f)) := by
  have hmap : (a.bodies.map (renamedBody f)).flatMap (·.2)
      = (a.bodies.flatMap (·.2)).map (Instr.mapLabels f) := by
    rw [List.flatMap_map, List.map_flatMap]
    rfl
  rw [instrs, instrs, h.main_eq, List.map_append, ← hmap]
  exact (h.bodies_perm.flatMap_right _).append_left _

/-- The size stays. -/
theorem size_eq (h : Rearranged f a a') : a'.size = a.size := by
  rw [size, sizeSum_perm h.instrs_perm, sizeSum_map_mapLabels, size]

/-- So do the labels, up to their names and order. -/
theorem labels_perm (h : Rearranged f a a') : a'.labels.Perm (a.labels.map f) := by
  have hmap : (a.bodies.map (renamedBody f)).map (·.1) = a.labels.map f := by
    rw [labels, List.map_map, List.map_map]
    rfl
  rw [← hmap]
  exact h.bodies_perm.map _

/-- So do the branch targets. -/
theorem targets_perm (h : Rearranged f a a') : a'.targets.Perm (a.targets.map f) := by
  have hmap : (a.instrs.map (Instr.mapLabels f)).flatMap Instr.labels = a.targets.map f := by
    rw [targets, List.flatMap_map, List.map_flatMap]
    exact congrArg (a.instrs.flatMap ·) (funext (Instr.labels_mapLabels f))
  rw [← hmap]
  exact h.instrs_perm.flatMap_right _

/-- A name is a label exactly if the old one was. -/
theorem mem_labels (h : Rearranged f a a') {l : Token} (hl : l ∈ a.labels ++ a.targets) :
    f l ∈ a'.labels ↔ l ∈ a.labels := by
  rw [h.labels_perm.mem_iff, List.mem_map]
  constructor
  · rintro ⟨k, hk, he⟩
    rwa [← h.distinct k (List.mem_append_left _ hk) l hl he]
  · exact fun hl => ⟨l, hl, rfl⟩

theorem mem_targets (h : Rearranged f a a') {l : Token} (hl : l ∈ a.labels ++ a.targets) :
    f l ∈ a'.targets ↔ l ∈ a.targets := by
  rw [h.targets_perm.mem_iff, List.mem_map]
  constructor
  · rintro ⟨k, hk, he⟩
    rwa [← h.distinct k (List.mem_append_right _ hk) l hl he]
  · exact fun hl => ⟨l, hl, rfl⟩

/-- Labels are different exactly if the old ones were. -/
theorem nodup_labels_iff (h : Rearranged f a a') : a'.labels.Nodup ↔ a.labels.Nodup := by
  rw [h.labels_perm.nodup_iff]
  refine ⟨.of_map f, fun hn => hn.map_on fun l hl l' hl' => ?_⟩
  exact h.distinct l (List.mem_append_left _ hl) l' (List.mem_append_left _ hl')

/-- Nothing keeps the one from being linked unless something keeps the other. -/
theorem defect?_eq_none (h : Rearranged f a a') : a'.defect? = none ↔ a.defect? = none := by
  have ht : (∀ l ∈ a'.targets, l ∈ a'.labels) ↔ ∀ l ∈ a.targets, l ∈ a.labels := by
    simp only [h.targets_perm.mem_iff, List.forall_mem_map]
    exact forall₂_congr fun l hl => h.mem_labels (List.mem_append_right _ hl)
  have hl : (∀ l ∈ a'.labels, l ∈ a'.targets) ↔ ∀ l ∈ a.labels, l ∈ a.targets := by
    simp only [h.labels_perm.mem_iff, List.forall_mem_map]
    exact forall₂_congr fun l hl => h.mem_targets (List.mem_append_left _ hl)
  rw [defect?_eq_none_iff, defect?_eq_none_iff, h.nodup_labels_iff, h.size_eq, ht, hl]

/-- A rearranged assembly links exactly if the original does. -/
theorem link_ok_iff (h : Rearranged f a a') :
    (∃ code, a'.link = .ok code) ↔ ∃ code, a.link = .ok code := by
  rw [exists_link_iff, exists_link_iff, h.defect?_eq_none]

theorem soundOperands (h : Rearranged f a a') (hs : ∀ i ∈ a.instrs, i.SoundOperands) :
    ∀ i ∈ a'.instrs, i.SoundOperands := by
  intro i hi
  obtain ⟨j, hj, rfl⟩ := List.mem_map.mp (h.instrs_perm.mem_iff.mp hi)
  exact Instr.sound_mapLabels (fun _ => trivial) (hs j hj)

/-- Closed bodies stay closed. -/
theorem closed_bodies (h : Rearranged f a a') (hc : ∀ b ∈ a.bodies, Closed b.2) :
    ∀ b ∈ a'.bodies, Closed b.2 := by
  intro b' hb'
  obtain ⟨b, hb, rfl⟩ := List.mem_map.mp (h.bodies_perm.mem_iff.mp hb')
  exact (hc b hb).map

/-- So does the main block, where it has to be. -/
theorem closed_main (h : Rearranged f a a') (hm : Closed a.main ∨ a.bodies = []) :
    Closed a'.main ∨ a'.bodies = [] := by
  rw [h.main_eq]
  refine hm.imp Closed.map fun hb => ?_
  have hp := h.bodies_perm
  rw [hb, List.map_nil] at hp
  exact hp.eq_nil

/-! ### What rearranged assemblies mean -/

/-- The body under a renamed label is the renamed body. -/
theorem body_eq (h : Rearranged f a a') (hn : a.labels.Nodup) {l : Token} (hl : l ∈ a.labels) :
    a'.body (f l) = (a.body l).map (Instr.mapLabels f) := by
  obtain ⟨b, hb, rfl⟩ := List.mem_map.mp hl
  have hb' : renamedBody f b ∈ a'.bodies :=
    h.bodies_perm.mem_iff.mpr (List.mem_map_of_mem hb)
  have hlookup : a'.bodies.lookup (f b.1) = some (b.2.map (Instr.mapLabels f)) :=
    lookup_of_mem (h.nodup_labels_iff.mpr hn) hb'
  rw [body, hlookup, body, lookup_of_mem hn hb, Option.getD_some, Option.getD_some]

variable {σ : Type} [Store σ]

/-- Entering a renamed body does what entering the body does. -/
theorem enter_eq (h : Rearranged f a a') (hd : a.defect? = none) (limit room : Nat) {l : Token}
    (hl : l ∈ a.labels) : (a'.enter limit room (f l) : Effect σ Unit) = a.enter limit room l := by
  obtain ⟨hn, -, htargets, -⟩ := defect?_eq_none_iff.mp hd
  induction room generalizing l with
  | zero => rfl
  | succ room ih =>
    rw [enter, enter, h.body_eq hn hl]
    refine Effect.block_mapLabels fun i hi k hk => ih (htargets k ?_)
    -- a branch of a body leads to a body again
    obtain ⟨b, hb, rfl⟩ := List.mem_map.mp hl
    rw [body, lookup_of_mem hn hb, Option.getD_some] at hi
    have hmem : i ∈ a.instrs := List.mem_append_right _ (List.mem_flatMap.mpr ⟨b, hb, hi⟩)
    exact List.mem_flatMap.mpr ⟨i, hmem, hk⟩

/-- Rearranged blocks mean the same. -/
theorem interpret_eq (h : Rearranged f a a') (hd : a.defect? = none) (limit : Nat) :
    (a'.interpret limit : Effect σ Unit) = a.interpret limit := by
  obtain ⟨-, -, htargets, -⟩ := defect?_eq_none_iff.mp hd
  rw [interpret, interpret, h.main_eq]
  refine Effect.block_mapLabels fun i hi k hk => h.enter_eq hd limit limit (htargets k ?_)
  exact List.mem_flatMap.mpr ⟨i, List.mem_append_left _ hi, hk⟩

end Rearranged

/-- **Order and names do not matter.** Take an assembly that was read from tokens, each of its
bodies closed by its own `end`, and another one that differs from it in the order of the bodies and
the names of the labels only. If one links, so does the other; and then the two programs, run from
fresh machines on the same store and host, end alike: both succeed or both fail with the same fault,
and they leave the same stack, store, host and journal. -/
theorem rearranged_runs_alike {tokens : List Token} {f : Token → Token} {a a' : Assembly}
    (hp : ofTokens .standard tokens = .ok a) (hclosed : ∀ b ∈ a.bodies, Closed b.2)
    (h : Rearranged f a a') :
    ((∃ code, a.link = .ok code) ↔ ∃ code', a'.link = .ok code') ∧
    ∀ code code', a.link = .ok code → a'.link = .ok code' →
      ∀ {σ : Type} [Store σ] (account : Address) (limits : Limits) (store : σ) (host : Host),
        (runCode code account limits store host).1 = (runCode code' account limits store host).1 ∧
        (runCode code account limits store host).2.work
          = (runCode code' account limits store host).2.work := by
  refine ⟨h.link_ok_iff.symm, fun code code' hl hl' σ _ account limits store host => ?_⟩
  obtain ⟨hsound, hmain⟩ := ofTokens_inv hp
  have hrun := runFrom_eq_interpret (σ := σ) (linked_of_sound hsound hl) hmain hclosed
    limits.maxCalls
  have hrun' := runFrom_eq_interpret (σ := σ) (linked_of_sound (h.soundOperands hsound) hl')
    (h.closed_main hmain) (h.closed_bodies hclosed) limits.maxCalls
  rw [h.interpret_eq (defect?_of_link hl), ← hrun] at hrun'
  have hends : ((runCode code account limits store host).1,
        (runCode code account limits store host).2.work)
      = ((runCode code' account limits store host).1,
        (runCode code' account limits store host).2.work) :=
    congrFun hrun'.symm ⟨account, .empty limits.maxStack, store, host, []⟩
  exact Prod.mk.inj hends

/-- Two bodies change places and names. The bytes differ, since the branch that is taken now leads
further, and both programs push the flag of the same body. -/
theorem rearranged_runs_alike_of_swap :
    ∃ (a a' : Assembly) (code code' : List UInt8),
      ofTokens .standard ["bool", "true", "ifelse", "yes", "no", "end", "yes", "bool", "false",
        "end", "no", "end"] = .ok a ∧
      a'.bodies.map (·.1) = ["yes", "no"] ∧ a.link = .ok code ∧ a'.link = .ok code' ∧
      code = [49, 1, 33, 0, 8, 0, 11, 35, 49, 0, 35, 35] ∧
      code' = [49, 1, 33, 0, 9, 0, 8, 35, 35, 49, 0, 35] ∧
      (runCode code .zero .default (.empty : Storage) .empty).1
        = (runCode code' .zero .default (.empty : Storage) .empty).1 ∧
      (runCode code .zero .default (.empty : Storage) .empty).2.work
        = (runCode code' .zero .default (.empty : Storage) .empty).2.work := by
  let f (l : Token) : Token := if l = "yes" then "no" else if l = "no" then "yes" else l
  let turned (a : Assembly) : Assembly :=
    ⟨a.main.map (Instr.mapLabels f), (a.bodies.map (renamedBody f)).reverse⟩
  have hfacts : (ofTokens .standard ["bool", "true", "ifelse", "yes", "no", "end", "yes", "bool",
      "false", "end", "no", "end"]).map (fun a => decide
        ((∀ b ∈ a.bodies, Closed b.2) ∧
          (∀ l ∈ a.labels ++ a.targets, ∀ l' ∈ a.labels ++ a.targets, f l = f l' → l = l') ∧
          (turned a).bodies.map (·.1) = ["yes", "no"] ∧
          a.link = .ok [49, 1, 33, 0, 8, 0, 11, 35, 49, 0, 35, 35] ∧
          (turned a).link = .ok [49, 1, 33, 0, 9, 0, 8, 35, 35, 49, 0, 35])) = .ok true := by
    decide +kernel
  cases hp : ofTokens .standard ["bool", "true", "ifelse", "yes", "no", "end", "yes", "bool",
      "false", "end", "no", "end"] with
  | error e =>
    rw [hp] at hfacts
    cases hfacts
  | ok a =>
    rw [hp] at hfacts
    obtain ⟨hclosed, hdistinct, hnames, hl, hl'⟩ := of_decide_eq_true (Except.ok.inj hfacts)
    have hturned : Rearranged f a (turned a) := ⟨rfl, List.reverse_perm _, hdistinct⟩
    obtain ⟨-, hruns⟩ := rearranged_runs_alike hp hclosed hturned
    exact ⟨a, turned a, _, _, rfl, hnames, hl, hl', rfl, rfl, hruns _ _ hl hl' _ _ _ _⟩

end Assembly

end Proviso
