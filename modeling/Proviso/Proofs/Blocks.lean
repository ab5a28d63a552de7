import Mathlib.Control.Monad.Basic
import Proviso.Evaluate
import Proviso.Proofs.Stepping

/-!
# Blocks and bytes

An assembly has a meaning without bytes, offsets and continuations: the instructions of a block are
carried out in order, a branch carries out the body that it names and then goes on behind itself,
and `end` finishes the block (`Assembly.interpret`).

Main statement: the machine that runs the linked bytes ends as this interpretation ends, with the
same fault and the same workspace (`Assembly.run_eq_interpret`).
-/

namespace Proviso

variable {σ : Type} [Store σ]

/-! ### Blocks -/

open Effect in
/-- Carries out a block, where `enter` carries out the body under a label. -/
def Effect.block (enter : Token → Effect σ Unit) : List (Instr Token) → Effect σ Unit
  | [] => return ()
  | ⟨.ifThen, (body, ())⟩ :: is => do
      if ← onStack (Stack.popFlag Opcode.ifThen.mnemonic) then enter body
      block enter is
  | ⟨.ifElse, (good, bad, ())⟩ :: is => do
      if ← onStack (Stack.popFlag Opcode.ifElse.mnemonic) then enter good else enter bad
      block enter is
  | ⟨.call, (body, ())⟩ :: is => do
      enter body
      block enter is
  | ⟨.close, ()⟩ :: _ => return ()
  | i :: is => do
      let _ ← i.perform
      block enter is

namespace Assembly

/-- The body under a label. -/
def body (a : Assembly) (label : Token) : List (Instr Token) :=
  (a.bodies.lookup label).getD []

/-- Carries out the body under a label, if there is room for one more among `limit`. -/
def enter (a : Assembly) (limit : Nat) : (room : Nat) → Token → Effect σ Unit
  | 0, _            => Act.fail (.callDepthExceeded limit)
  | room + 1, label => Effect.block (a.enter limit room) (a.body label)

/-- Carries out the main block, with at most `limit` bodies inside one another. -/
def interpret (a : Assembly) (limit : Nat) : Effect σ Unit :=
  Effect.block (a.enter limit limit) a.main

end Assembly

/-- Goes on in a block as an instruction said. -/
def Control.within (enter : Token → Effect σ Unit) (rest : Effect σ Unit) :
    Control Token → Effect σ Unit
  | .next    => rest
  | .enter l => do enter l; rest
  | .leave   => return ()

/-- A block carries out its first instruction and goes on as that says. -/
theorem Effect.block_cons (enter : Token → Effect σ Unit) (i : Instr Token)
    (is : List (Instr Token)) :
    block enter (i :: is) = i.perform >>= Control.within enter (block enter is) := by
  obtain ⟨op, as⟩ := i
  cases op with
  | ifThen =>
    simp only [block, Instr.perform, bind_assoc]
    refine bind_congr fun b => ?_
    cases b <;> rfl
  | ifElse =>
    simp only [block, Instr.perform, bind_assoc]
    refine bind_congr fun b => ?_
    cases b <;> rfl
  | call | close => rfl
  | literal s => cases s <;> exact .symm (Instr.perform_bind_of_plain (by rfl) (by rintro ⟨⟩) _)
  | _ => exact .symm (Instr.perform_bind_of_plain (by rfl) (by rintro ⟨⟩) _)

/-! ### Runs as effects

A run from a position with given continuations is an effect on the workspace. -/

namespace Machine

/-- A run from `pc`, where `conts` are still to return to. -/
def runFrom (code : Array UInt8) (limit pc : Nat) (conts : List Nat) : Effect σ Unit := fun w =>
  let (r, m) := Machine.run ⟨⟨code, pc, conts⟩, limit, w⟩
  (r, m.work)

/-- What is left to run when a block is finished. -/
def resume (code : Array UInt8) (limit : Nat) : List Nat → Effect σ Unit
  | []         => return ()
  | k :: conts => runFrom code limit k conts

/-- What is left to run behind an instruction of a linked program, as it says. -/
def goOn (a : Assembly) (code : Array UInt8) (limit next : Nat) (conts : List Nat) :
    Control Token → Effect σ Unit
  | .next    => runFrom code limit next conts
  | .enter l =>
    if limit ≤ conts.length then Act.fail (.callDepthExceeded limit)
    else runFrom code limit (a.offsetOf l) (next :: conts)
  | .leave   => resume code limit conts

section Run

variable {code : Array UInt8} {limit pc : Nat} {conts : List Nat} {w : Workspace σ}

/-- Behind the last byte the run is over. -/
theorem runFrom_of_end (h : code.size ≤ pc) :
    runFrom code limit pc conts = (return () : Effect σ Unit) := by
  funext w
  have hr : run ⟨⟨code, pc, conts⟩, limit, w⟩ = (.ok (), ⟨⟨code, pc, conts⟩, limit, w⟩) :=
    run_of_finished h
  rw [runFrom, hr]
  rfl

/-- A run ends with the fault of a step. -/
theorem runFrom_of_step_error {f : Fault} {m' : Machine σ} (h : pc < code.size)
    (hs : step ⟨⟨code, pc, conts⟩, limit, w⟩ = (.error f, m')) :
    runFrom code limit pc conts w = (.error f, m'.work) := by
  rw [runFrom, run_of_step_error h hs]

/-- A run goes on where a step leads. -/
theorem runFrom_of_step_ok {p : Program} {w' : Workspace σ}
    (hs : step ⟨⟨code, pc, conts⟩, limit, w⟩ = (.ok (), ⟨p, limit, w'⟩)) :
    runFrom code limit pc conts w = runFrom p.code limit p.pc p.continuations w' := by
  rw [runFrom, run_of_step_ok hs]
  rfl

end Run

variable {a : Assembly} {code : List UInt8} {limit pc : Nat} {conts : List Nat}
  {i : Instr Token} {is : List (Instr Token)}

/-- A run from an instruction of a linked program carries it out and goes on as it says. -/
theorem runFrom_at (hl : a.Linked code) (hk : ∀ k ∈ conts, k ≤ a.size) (hat : a.At pc (i :: is)) :
    (runFrom code.toArray limit pc conts : Effect σ Unit)
      = i.perform >>= goOn a code.toArray limit (pc + i.size) conts := by
  funext w
  have hsize : code.toArray.size = a.size := by rw [List.size_toArray, hl.length_code]
  have hpc : pc < code.toArray.size := hsize.symm ▸ hat.lt_size
  rcases step_at (m := ⟨⟨code.toArray, pc, conts⟩, limit, w⟩) hl rfl hat with
    ⟨f, w', pc', hp, hs⟩ | ⟨c, w', r, p, hp, hf, hs⟩
  · rw [Act.bind_of_error hp, runFrom_of_step_error hpc hs]
  rw [Act.bind_of_ok hp]
  -- where the instruction leads decides what the step does to the position
  cases c with
  | next =>
    cases hf
    exact runFrom_of_step_ok hs
  | enter l =>
    rw [goOn]
    by_cases hd : limit ≤ conts.length
    · rw [Control.map, follow_enter_of_full hd] at hf
      cases hf
      rw [if_pos hd, runFrom_of_step_error hpc hs]
      rfl
    · have hle : a.offsetOf l ≤ code.toArray.size := hsize.symm ▸ a.offsetOf_le_size l
      rw [Control.map, follow_enter_of_room (Nat.lt_of_not_le hd) hle] at hf
      cases hf
      rw [if_neg hd]
      exact runFrom_of_step_ok hs
  | leave =>
    cases conts with
    | nil =>
      rw [Control.map, follow_leave_of_nil rfl] at hf
      cases hf
      exact (runFrom_of_step_ok hs).trans (congrFun (runFrom_of_end (Nat.le_refl _)) w')
    | cons k conts =>
      have hle : k ≤ code.toArray.size := hsize.symm ▸ hk k (.head _)
      rw [Control.map, follow_leave_of_cons rfl hle] at hf
      cases hf
      exact runFrom_of_step_ok hs

/-- A block either ends with the instruction that closes it, or it is the last thing in the program
and nothing is to return to. -/
def Ends (a : Assembly) (pc : Nat) (conts : List Nat) (is : List (Instr Token)) : Prop :=
  Closed is ∨ conts = [] ∧ a.size ≤ pc + Assembly.sizeSum is

/-- Nothing is to return to behind a block that was not closed. -/
theorem Ends.of_nil (h : Ends a pc conts []) : conts = [] ∧ a.size ≤ pc := by
  rcases h with ⟨before, j, he, -⟩ | h
  · simp at he
  · exact h

/-- What follows an instruction that does not close the block ends as the block does. -/
theorem Ends.tail (h : Ends a pc conts (i :: is)) (hi : i.opcode ≠ .close) :
    Ends a (pc + i.size) conts is := by
  rcases h with ⟨before, j, he, hj⟩ | ⟨rfl, hs⟩
  · cases before with
    | nil =>
      cases he
      exact absurd hj hi
    | cons b before =>
      cases he
      exact .inl ⟨before, j, rfl, hj⟩
  · refine .inr ⟨rfl, ?_⟩
    rw [Nat.add_assoc]
    exact hs

/-- The main block is closed, or it is all there is and nothing is to return to. -/
theorem ends_main (h : Closed a.main ∨ a.bodies = []) : Ends a 0 [] a.main := by
  refine h.imp_right fun hb => ⟨rfl, ?_⟩
  rw [Assembly.size, Assembly.instrs, hb, Nat.zero_add]
  simp

/-- A run from the place of a block carries out the block and then returns, if a run from the place
of a body does so for `enter`. -/
theorem runFrom_block (hl : a.Linked code) (hk : ∀ k ∈ conts, k ≤ a.size)
    (enter : Token → Effect σ Unit)
    (henter : ∀ l body next, a.bodies.lookup l = some body → next ≤ a.size →
      goOn a code.toArray limit next conts (.enter l)
        = (do enter l; runFrom code.toArray limit next conts))
    (hat : a.At pc is) (he : Ends a pc conts is) :
    runFrom code.toArray limit pc conts
      = (do Effect.block enter is; resume code.toArray limit conts) := by
  induction is generalizing pc with
  | nil =>
    obtain ⟨rfl, hs⟩ := he.of_nil
    have hsize : code.toArray.size ≤ pc := by
      rw [List.size_toArray, hl.length_code]
      exact hs
    rw [runFrom_of_end hsize]
    rfl
  | cons i is ih =>
    -- run and block carry out the same instruction, so only what comes behind it is to compare
    rw [runFrom_at hl hk hat, Effect.block_cons, bind_assoc]
    refine i.leads_perform.bind_congr fun c hc => ?_
    cases c with
    | next => exact ih hat.tail (he.tail hc)
    | enter l =>
      obtain ⟨body, hb⟩ := hl.resolved i hat.mem l hc
      have hn : pc + i.size ≤ a.size := Nat.le_trans (Nat.le_add_right _ _) hat.tail.le_size
      rw [henter l body _ hb hn, Control.within, bind_assoc]
      exact bind_congr fun _ => ih hat.tail (he.tail (Instr.opcode_ne_close_of_mem_labels hc))
    | leave => rfl

/-- A run enters a body as the interpretation does, while the bodies that are under way and the
room for more make up the limit. -/
theorem goOn_enter (hl : a.Linked code) (hclosed : ∀ b ∈ a.bodies, Closed b.2) (room : Nat)
    (hk : ∀ k ∈ conts, k ≤ a.size) (hroom : conts.length + room = limit) {l : Token}
    {body : List (Instr Token)} {next : Nat} (hb : a.bodies.lookup l = some body)
    (hn : next ≤ a.size) :
    (goOn a code.toArray limit next conts (.enter l) : Effect σ Unit)
      = (do a.enter limit room l; runFrom code.toArray limit next conts) := by
  -- a body has one place less for the bodies that it enters
  induction room generalizing conts l body next with
  | zero =>
    have hle : limit ≤ conts.length := Nat.le_of_eq hroom.symm
    rw [goOn, if_pos hle]
    rfl
  | succ room ih =>
    have hlt : ¬ limit ≤ conts.length := by omega
    have hk' : ∀ k ∈ next :: conts, k ≤ a.size := List.forall_mem_cons.mpr ⟨hn, hk⟩
    have hbody : a.body l = body := by rw [Assembly.body, hb, Option.getD_some]
    rw [goOn, if_neg hlt, Assembly.enter, hbody]
    refine runFrom_block hl hk' _ (fun l' body' next' hb' hn' => ?_) (Assembly.at_offsetOf hb) ?_
    · exact ih hk' (by rw [List.length_cons]; omega) hb' hn'
    · obtain ⟨before, behind, hmem, -⟩ := List.lookup_eq_some_iff.mp hb
      exact .inl (hclosed (l, body) (by simp [hmem]))

end Machine

/-- The run of a linked program from its first byte is the interpretation of its blocks, if each
block ends with the instruction that closes it or is all there is. -/
theorem Assembly.runFrom_eq_interpret {a : Assembly} {code : List UInt8} (hl : a.Linked code)
    (hmain : Closed a.main ∨ a.bodies = []) (hclosed : ∀ b ∈ a.bodies, Closed b.2) (limit : Nat) :
    (Machine.runFrom code.toArray limit 0 [] : Effect σ Unit) = a.interpret limit := by
  have hnil : ∀ k ∈ ([] : List Nat), k ≤ a.size := by simp
  have henter : ∀ l body next, a.bodies.lookup l = some body → next ≤ a.size →
      (Machine.goOn a code.toArray limit next [] (.enter l) : Effect σ Unit)
        = (do a.enter limit limit l; Machine.runFrom code.toArray limit next []) :=
    fun _ _ _ => Machine.goOn_enter hl hclosed _ hnil (Nat.zero_add _)
  have hrun := Machine.runFrom_block hl hnil _ henter a.at_main (Machine.ends_main hmain)
  rwa [show (Machine.resume code.toArray limit [] : Effect σ Unit) = pure () from rfl,
    bind_pure_unit] at hrun

/-- **Bytes refine blocks.** The run of a linked program from a fresh machine and the direct
interpretation of its blocks end alike: both succeed or both fail with the same fault, and they
leave the same stack, store, host and journal. Of the bodies, each has to end with the instruction
that closes it. -/
theorem Assembly.run_eq_interpret {tokens : List Token} {a : Assembly} {code : List UInt8}
    (hp : Assembly.ofTokens .standard tokens = .ok a) (hl : a.link = .ok code)
    (hclosed : ∀ b ∈ a.bodies, Closed b.2) (account : Address) (limits : Limits) (store : σ)
    (host : Host) :
    ((runCode code account limits store host).1, (runCode code account limits store host).2.work)
      = a.interpret limits.maxCalls ⟨account, .empty limits.maxStack, store, host, []⟩ :=
  congrFun (runFrom_eq_interpret (linked_of_tokens hp hl) (ofTokens_inv hp).2 hclosed
    limits.maxCalls) _

/-- A branch into a body that calls another one, under a limit that the call exceeds. -/
theorem Assembly.run_eq_interpret_of_nested_call :
    ∃ a code, Assembly.ofTokens .standard
        ["bool", "true", "ifelse", "yes", "no", "end", "yes", "bool", "false", "func", "deep",
          "end", "no", "end", "deep", "end"] = .ok a ∧
      a.link = .ok code ∧ (∀ b ∈ a.bodies, Closed b.2) ∧
      ((runCode code .zero ⟨2, 1⟩ (.empty : Storage) .empty).1,
          (runCode code .zero ⟨2, 1⟩ (.empty : Storage) .empty).2.work)
        = a.interpret 1 ⟨.zero, .empty 2, .empty, .empty, []⟩ ∧
      (runCode code .zero ⟨2, 1⟩ (.empty : Storage) .empty).1
        = .error (.callDepthExceeded 1) := by
  obtain ⟨a, hp, hl⟩ := assemble_eq_ok
    (show assemble ["bool", "true", "ifelse", "yes", "no", "end", "yes", "bool", "false", "func",
      "deep", "end", "no", "end", "deep", "end"]
        = .ok [49, 1, 33, 0, 8, 0, 14, 35, 49, 0, 34, 0, 15, 35, 35, 35] by decide +kernel)
  have hmap : (Assembly.ofTokens .standard ["bool", "true", "ifelse", "yes", "no", "end", "yes",
      "bool", "false", "func", "deep", "end", "no", "end", "deep", "end"]).map
        (fun a => decide (∀ b ∈ a.bodies, Closed b.2)) = .ok true := by decide +kernel
  rw [hp] at hmap
  have hclosed := of_decide_eq_true (Except.ok.inj hmap)
  exact ⟨a, _, hp, hl, hclosed,
    run_eq_interpret hp hl hclosed .zero ⟨2, 1⟩ Table.empty .empty, by decide +kernel⟩

end Proviso
