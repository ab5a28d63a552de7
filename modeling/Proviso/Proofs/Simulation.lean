import Proviso.Proofs.Requests

/-!
# Two runs side by side

One program on two machines, which may keep their stores in different ways. A relation between
their workspaces is a simulation if every primitive of the instructions keeps it and gives both
sides the same result. The first side may also fail with a fault that is excused, such as the want
of room that the second side does not feel; nothing is said of the second side then.

* `Workspace.Simulation.perform`: instructions keep a simulation, those that call the host included.
* `Workspace.Simulation.step`, `Workspace.Simulation.run`: so do steps and whole runs, wherever the
  first machine reads slots of named accounts that the simulation covers.
-/

namespace Proviso

variable {σ τ L : Type}

/-- Both sides end alike, in related states; or the first one failed and is excused. -/
def Act.Matches {ε α : Type} (excused : ε → Prop) (W : σ → τ → Prop) (r : Except ε α × σ)
    (r' : Except ε α × τ) : Prop :=
  (∃ e, r.1 = .error e ∧ excused e) ∨ (r.1 = r'.1 ∧ W r.2 r'.2)

/-- Without excuses both sides end alike. -/
theorem Act.Matches.alike {ε α : Type} {W : σ → τ → Prop} {r : Except ε α × σ} {r' : Except ε α × τ}
    (h : Matches (fun _ => False) W r r') : r.1 = r'.1 ∧ W r.2 r'.2 :=
  h.resolve_left fun ⟨_, _, hf⟩ => hf

theorem Act.matches_of_eq {ε α : Type} {excused : ε → Prop} {x : Act ε σ α} {s s' : σ}
    (h : s = s') : Matches excused Eq (x s) (x s') :=
  .inr ⟨congrArg (fun s => (x s).1) h, congrArg (fun s => (x s).2) h⟩

/-! ### Effects -/

namespace Effect

variable {α β : Type} {excused : Fault → Prop} {W : Workspace σ → Workspace τ → Prop}

/-- From related workspaces the effects end alike, or the first one is excused. -/
def Tracks (excused : Fault → Prop) (W : Workspace σ → Workspace τ → Prop) (x : Effect σ α)
    (y : Effect τ α) : Prop :=
  ∀ w w', W w w' → Act.Matches excused W (x w) (y w')

namespace Tracks

theorem pure (a : α) : Tracks excused W (pure a) (pure a) :=
  fun _ _ h => .inr ⟨rfl, h⟩

theorem fail (f : Fault) : Tracks excused W (Act.fail f : Effect σ α) (Act.fail f) :=
  fun _ _ h => .inr ⟨rfl, h⟩

/-- Effects track each other one after another. -/
theorem bind {x : Effect σ α} {y : Effect τ α} {f : α → Effect σ β} {g : α → Effect τ β}
    (hx : Tracks excused W x y) (hf : ∀ a, Tracks excused W (f a) (g a)) :
    Tracks excused W (x >>= f) (y >>= g) := by
  intro w w' h
  have hm := hx w w' h
  rcases hxw : x w with ⟨r, w₁⟩
  rcases hyw : y w' with ⟨r', w₁'⟩
  rw [hxw, hyw] at hm
  rcases hm with ⟨e, rfl, he⟩ | ⟨rfl, hw⟩
  · exact .inl ⟨e, congrArg Prod.fst (Act.bind_of_error hxw f), he⟩
  · cases r with
    | error e =>
      rw [Act.bind_of_error hxw, Act.bind_of_error hyw]
      exact .inr ⟨rfl, hw⟩
    | ok a =>
      rw [Act.bind_of_ok hxw, Act.bind_of_ok hyw]
      exact hf a w₁ w₁' hw

/-- What is looked up is the same on both sides. -/
theorem look {f : Workspace σ → α} {g : Workspace τ → α} (h : ∀ w w', W w w' → f w = g w') :
    Tracks excused W (Act.look f) (Act.look g) :=
  fun w w' hw => .inr ⟨congrArg Except.ok (h w w' hw), hw⟩

/-- An act on the stack gives related workspaces what it gives their stacks, if the workspaces stay
related with the stacks that it leaves. -/
theorem onStack {S : Stack → Stack → Prop} {x : Act Fault Stack α}
    (hs : ∀ {w w'}, W w w' → S w.stack w'.stack)
    (hk : ∀ {w w' s s'}, W w w' → S s s' → W { w with stack := s } { w' with stack := s' })
    (hx : ∀ {s s'}, S s s' → Act.Matches excused S (x s) (x s')) :
    Tracks excused W (onStack x) (onStack x) := by
  intro w w' h
  rcases hx (hs h) with ⟨e, he, hexc⟩ | ⟨hr, hS⟩
  · exact .inl ⟨e, he, hexc⟩
  · exact .inr ⟨hr, hk h hS⟩

end Tracks

end Effect

/-! ### Simulations -/

variable [Store σ] [Store τ]

/-- A relation between workspaces that tells no effect of an instruction apart. Both sides have the
same local words, and the same words in the slots of other accounts that are in `reads`. -/
structure Workspace.Simulation (reads : Address → Slot → Prop) (excused : Fault → Prop)
    (W : Workspace σ → Workspace τ → Prop) : Prop where
  account {w : Workspace σ} {w' : Workspace τ} (h : W w w') : w.account = w'.account
  locals {w : Workspace σ} {w' : Workspace τ} (h : W w w') : w.locals = w'.locals
  load {w : Workspace σ} {w' : Workspace τ} (h : W w w') {a : Address} {k : Slot} (hr : reads a k) :
    Store.load w.store a k = Store.load w'.store a k
  host {w : Workspace σ} {w' : Workspace τ} (h : W w w') : w.host = w'.host
  push (c : Cell) : Effect.Tracks excused W (Effect.push c) (Effect.push c)
  pop (op : String) :
    Effect.Tracks excused W (Effect.onStack (Stack.pop op)) (Effect.onStack (Stack.pop op))
  popPair (op : String) :
    Effect.Tracks excused W (Effect.onStack (Stack.popPair op)) (Effect.onStack (Stack.popPair op))
  store {w : Workspace σ} {w' : Workspace τ} (k : Slot) (v : Word) (h : W w w') :
    W { w with store := Store.put w.store w.account k v }
      { w' with store := Store.put w'.store w'.account k v }
  call {w : Workspace σ} {w' : Workspace τ} (host : Host) (r : Request) (h : W w w') :
    W { w with host := host, journal := r :: w.journal }
      { w' with host := host, journal := r :: w'.journal }

namespace Machine

/-- The machines are at the same place with related workspaces. The second one may have room for
more branches, if it is excused that the first has not. -/
structure Beside (excused : Fault → Prop) (W : Workspace σ → Workspace τ → Prop) (m : Machine σ)
    (m' : Machine τ) : Prop where
  program : m.program = m'.program
  maxCalls : m.maxCalls = m'.maxCalls ∨
    m.maxCalls ≤ m'.maxCalls ∧ excused (.callDepthExceeded m.maxCalls)
  work : W m.work m'.work

/-- The next instruction, if there is one, reads no slots of named accounts but those in `reads`. -/
def ReadsIn (reads : Address → Slot → Prop) (m : Machine σ) : Prop :=
  ∀ i pc, decodeAt Reader.runnable m.program.code m.program.pc = (.ok i, pc) →
    ∀ a k, i.Reads a k → reads a k

/-- With room for more branches the program goes on alike, but for a branch that there was no room
for. -/
theorem follow_mono {limit limit' : Nat} (h : limit ≤ limit') (c : Control Nat) (p : Program) :
    follow limit c p = follow limit' c p ∨
      follow limit c p = (.error (.callDepthExceeded limit), p) := by
  cases c with
  | next => exact .inl rfl
  | leave => exact .inl rfl
  | enter target =>
    by_cases hfull : limit ≤ p.depth
    · exact .inr (follow_enter_of_full hfull)
    · have hfull' : ¬ limit' ≤ p.depth := fun h' => hfull (Nat.le_trans h h')
      rw [follow, follow, Program.enter_apply, Program.enter_apply, if_neg hfull, if_neg hfull']
      exact .inl rfl

end Machine

namespace Workspace.Simulation

variable {reads : Address → Slot → Prop} {excused : Fault → Prop}
  {W : Workspace σ → Workspace τ → Prop}

/-- To track goes through the primitives of effects. -/
theorem congruence (hW : Simulation reads excused W) :
    Effect.CongruenceOn reads (fun _ => True) (Effect.Tracks excused W) where
  pure := .pure
  fail := .fail
  bind := .bind
  push := hW.push
  pop := hW.pop
  popPair := hW.popPair
  locals h := .look fun w w' hw => h w w' (hW.locals hw)
  load hr := .look fun _ _ hw => hW.load hw hr
  host f := .look fun _ _ hw => congrArg f (hW.host hw)
  storeLocal _ v := fun _ _ hw => .inr ⟨rfl, hW.store _ v hw⟩

/-- A request goes to the same host from both sides. -/
theorem request (hW : Simulation reads excused W) (op : Opcode) (call : HostCall) :
    Effect.Tracks excused W (Effect.request op call) (Effect.request op call) := by
  intro w w' h
  rw [Effect.request_apply, Effect.request_apply, ← hW.host h]
  split
  · exact hW.push _ _ _ (hW.call _ _ h)
  · exact Effect.Tracks.fail _ _ _ (hW.call _ _ h)

/-- An instruction keeps a simulation that covers what it reads. -/
theorem perform (hW : Simulation reads excused W) {i : Instr L}
    (hr : ∀ a k, i.Reads a k → reads a k) :
    Effect.Tracks excused W (i.perform : Effect σ (Control L)) i.perform := by
  cases hd : i.demand? with
  | none => exact (hW.congruence.mono hr fun _ _ => trivial).perform hd
  | some call =>
    intro w w' h
    rw [Instr.perform_of_demand hd, Instr.perform_of_demand hd, ← hW.account h, ← hW.locals h]
    exact (hW.request _ _).bind (fun _ => .pure _) w w' h

/-- Fields are stored alike. -/
theorem storeFields (hW : Simulation reads excused W) (fs : List Field) {w : Workspace σ}
    {w' : Workspace τ} (h : W w w') :
    W (Effect.storeFields fs w).2 (Effect.storeFields fs w').2 := by
  induction fs generalizing w w' with
  | nil => exact h
  | cons f fs ih => exact ih (hW.store _ _ (hW.store _ _ h))

variable {m : Machine σ} {m' : Machine τ}

/-- **Steps side by side.** -/
theorem step (hW : Simulation reads excused W) (h : m.Beside excused W m') (hr : m.ReadsIn reads) :
    Act.Matches excused (Machine.Beside excused W) m.step m'.step := by
  obtain ⟨program, maxCalls, w⟩ := m
  obtain ⟨_, maxCalls', w'⟩ := m'
  obtain ⟨rfl, hcalls, hw⟩ := h
  rcases hd : decodeAt Reader.runnable program.code program.pc with ⟨e | i, pc⟩
  · -- the fields that a struct read before it broke off are stored in both
    rw [Machine.step_of_decode_error hd, Machine.step_of_decode_error hd]
    exact .inr ⟨rfl, rfl, hcalls, hW.storeFields e.fields hw⟩
  · have hm := hW.perform (hr i pc hd) w w' hw
    rcases hp : i.perform w with ⟨r, w₁⟩
    rcases hp' : i.perform w' with ⟨r', w₁'⟩
    rw [hp, hp'] at hm
    rcases hm with ⟨f, rfl, hf⟩ | ⟨rfl, hw₁⟩
    · exact .inl ⟨f, congrArg Prod.fst (Machine.step_of_perform_error hd hp), hf⟩
    cases r with
    | error f =>
      rw [Machine.step_of_perform_error hd hp, Machine.step_of_perform_error hd hp']
      exact .inr ⟨rfl, rfl, hcalls, hw₁⟩
    | ok c =>
      rw [Machine.step_of_perform_ok hd hp, Machine.step_of_perform_ok hd hp']
      rcases hcalls with rfl | ⟨hle, hexc⟩
      · exact .inr ⟨rfl, rfl, .inl rfl, hw₁⟩
      · rcases Machine.follow_mono hle c (program.moveTo pc) with hf | hf
        · exact .inr ⟨congrArg Prod.fst hf, congrArg Prod.snd hf, .inr ⟨hle, hexc⟩, hw₁⟩
        · exact .inl ⟨_, congrArg Prod.fst hf, hexc⟩

/-- **Runs side by side.** -/
theorem run (hW : Simulation reads excused W) (h : m.Beside excused W m')
    (hr : ∀ m₁, m.Steps m₁ → m₁.ReadsIn reads) :
    Act.Matches excused (Machine.Beside excused W) m.run m'.run := by
  -- each step that succeeds makes the first machine lighter
  induction hn : m.weight using Nat.strongRecOn generalizing m m' with
  | ind n ih =>
    by_cases hfin : m.program.length ≤ m.program.pc
    · rw [Machine.run_of_finished hfin, Machine.run_of_finished (h.program ▸ hfin)]
      exact .inr ⟨rfl, h⟩
    have hlt : m.program.pc < m.program.length := Nat.lt_of_not_le hfin
    have hlt' : m'.program.pc < m'.program.length := h.program ▸ hlt
    have hm := hW.step h (hr m (.refl m))
    rcases hs : m.step with ⟨r, m₁⟩
    rcases hs' : m'.step with ⟨r', m₁'⟩
    rw [hs, hs'] at hm
    rcases hm with ⟨f, rfl, hf⟩ | ⟨rfl, hnext⟩
    · exact .inl ⟨f, congrArg Prod.fst (Machine.run_of_step_error hlt hs), hf⟩
    cases r with
    | error f =>
      rw [Machine.run_of_step_error hlt hs, Machine.run_of_step_error hlt' hs']
      exact .inr ⟨rfl, hnext⟩
    | ok u =>
      rw [Machine.run_of_step_ok hs, Machine.run_of_step_ok hs']
      exact ih _ (hn ▸ Machine.weight_step_lt hlt hs) hnext (fun m₂ hm₂ => hr m₂ (.more hs hm₂)) rfl

end Workspace.Simulation

end Proviso
