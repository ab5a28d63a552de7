import Proviso.Evaluate
import Proviso.Proofs.Simulation
import Proviso.Proofs.Stores

/-!
# Staged evaluation

A run sees its store only by reading slots, so two machines whose stores agree take the same
steps, over whatever stores they work: they succeed or fail alike, with the same stack, host and
journal, and their stores agree again. An overlay without writes agrees with the store under it,
and a committed overlay with the overlay. So a staged evaluation ends as a direct one does; it
leaves the same storage if it succeeds, and the storage it began with if it fails.

* `Workspace.simulation_alike`: stores that agree cannot be told apart.
* `Machine.run_alike`: whole runs.
* `evaluateStaged_agrees`: the two evaluations.
-/

namespace Proviso

variable {σ τ : Type} [Store σ] [Store τ]

/-- The workspaces differ at most in how their stores are kept. -/
structure Workspace.Alike (w : Workspace σ) (w' : Workspace τ) : Prop where
  account : w.account = w'.account
  stack : w.stack = w'.stack
  host : w.host = w'.host
  journal : w.journal = w'.journal
  store : Store.Agree w.store w'.store

theorem Workspace.Alike.locals_eq {w : Workspace σ} {w' : Workspace τ} (h : w.Alike w') :
    w.locals = w'.locals := by
  funext k
  rw [locals, locals, h.account]
  exact h.store.load _ k

/-! ### Machines side by side -/

section Lawful

variable [LawfulStore σ] [LawfulStore τ]

/-- Nothing that a program does tells workspaces apart that are alike. -/
theorem Workspace.simulation_alike :
    Simulation (fun _ _ => True) (fun _ => False) (@Alike σ τ _ _) where
  account h := h.account
  locals h := h.locals_eq
  load h _ _ _ := h.store.load _ _
  host h := h.host
  push _ := .onStack (fun h => h.stack) (fun h hs => { h with stack := hs }) Act.matches_of_eq
  pop _ := .onStack (fun h => h.stack) (fun h hs => { h with stack := hs }) Act.matches_of_eq
  popPair _ := .onStack (fun h => h.stack) (fun h hs => { h with stack := hs }) Act.matches_of_eq
  store {w w'} k v h := by
    have hs := h.store.put w.account k v
    refine { h with store := ?_ }
    rwa [← h.account]
  call _ r h := { h with host := rfl, journal := congrArg (r :: ·) h.journal }

namespace Machine

/-- The machines are at the same place, with workspaces that are alike. -/
structure Alike (m : Machine σ) (m' : Machine τ) : Prop where
  program : m.program = m'.program
  maxCalls : m.maxCalls = m'.maxCalls
  work : m.work.Alike m'.work

/-- Machines that are alike run alike. -/
theorem run_alike {m : Machine σ} {m' : Machine τ} (h : m.Alike m') :
    m.run.1 = m'.run.1 ∧ m.run.2.Alike m'.run.2 := by
  have hb : m.Beside (fun _ => False) Workspace.Alike m' := ⟨h.program, .inl h.maxCalls, h.work⟩
  obtain ⟨hr, hm⟩ :=
    (Workspace.simulation_alike.run hb fun _ _ _ _ _ _ _ _ => trivial).alike
  exact ⟨hr, hm.program, hm.maxCalls.resolve_right fun hx => hx.2, hm.work⟩

end Machine

/-! ### Evaluations -/

/-- Over stores that agree, a text has the same value or the same error, the host ends alike, and
the stores agree again. -/
theorem evaluate_alike (text : String) (account : Address) (limits : Limits) {s : σ} {t : τ}
    (h : Store.Agree s t) (host : Host) :
    (evaluate text account limits s host).result = (evaluate text account limits t host).result ∧
    (evaluate text account limits s host).host = (evaluate text account limits t host).host ∧
    Store.Agree (evaluate text account limits s host).store
      (evaluate text account limits t host).store := by
  cases hc : compile text with
  | error e =>
    simp only [evaluate, hc]
    exact ⟨trivial, trivial, h⟩
  | ok code =>
    have halike : ((Machine.fresh account limits s host).load code.toArray).Alike
        ((Machine.fresh account limits t host).load code.toArray) :=
      ⟨rfl, rfl, rfl, rfl, rfl, rfl, h⟩
    obtain ⟨hr, hm⟩ := Machine.run_alike halike
    simp only [evaluate, hc, runCode]
    rcases hrun : ((Machine.fresh account limits s host).load code.toArray).run with ⟨r, m⟩
    rcases hrun' : ((Machine.fresh account limits t host).load code.toArray).run with ⟨r', m'⟩
    rw [hrun, hrun'] at hr hm
    obtain rfl : r = r' := hr
    have htop : m.top? = m'.top? := congrArg Stack.top? hm.work.stack
    cases r with
    | error f => exact ⟨rfl, hm.work.host, hm.work.store⟩
    | ok u => exact ⟨congrArg Except.ok htop, hm.work.host, hm.work.store⟩

end Lawful

/-- A text that does not compile changes nothing. -/
theorem evaluate_of_compile_error {text : String} {account : Address} {limits : Limits} {s : σ}
    {host : Host} {e : CompileError}
    (h : (evaluate text account limits s host).result = .error (.compile e)) :
    (evaluate text account limits s host).store = s ∧
    (evaluate text account limits s host).host = host := by
  cases hc : compile text with
  | error e' => simp [evaluate, hc]
  | ok code =>
    rw [evaluate, hc] at h
    dsimp only at h
    split at h <;> cases h

/-- **Staging.** A staged evaluation has the result of the direct one and leaves the same host. If
they succeed, both leave the same storage; if they fail, the staged one leaves the storage as it
was. A text that does not compile leaves storage and host as they were in both. -/
theorem evaluateStaged_agrees (text : String) (account : Address) (limits : Limits) (s : Storage)
    (host : Host) :
    (evaluateStaged text account limits s host).result
      = (evaluate text account limits s host).result ∧
    (evaluateStaged text account limits s host).host
      = (evaluate text account limits s host).host ∧
    (∀ top, (evaluate text account limits s host).result = .ok top →
      (evaluateStaged text account limits s host).store
        = (evaluate text account limits s host).store) ∧
    (∀ e, (evaluate text account limits s host).result = .error e →
      (evaluateStaged text account limits s host).store = s) ∧
    (∀ e, (evaluate text account limits s host).result = .error (.compile e) →
      (evaluate text account limits s host).store = s ∧
      (evaluate text account limits s host).host = host ∧
      (evaluateStaged text account limits s host).store = s ∧
      (evaluateStaged text account limits s host).host = host) := by
  obtain ⟨hr, hh, hs⟩ := evaluate_alike text account limits (Overlay.agree_ofBase s) host
  cases hd : (evaluate text account limits s host).result with
  | ok top =>
    have hstaged : evaluateStaged text account limits s host
        = ⟨.ok top, (evaluate text account limits (Overlay.ofBase s) host).store.commit,
          (evaluate text account limits (Overlay.ofBase s) host).host,
          (evaluate text account limits (Overlay.ofBase s) host).journal⟩ := by
      simp only [evaluateStaged, hr, hd]
    rw [hstaged]
    -- the committed overlay reads as the overlay does, and the overlay as the direct storage
    refine ⟨rfl, hh, fun _ _ => Store.Agree.eq fun a k => ?_, fun _ he => ?_, fun _ he => ?_⟩
    · exact (Overlay.agree_commit _ a k).trans (hs a k)
    · cases he
    · cases he
  | error e =>
    have hstaged : evaluateStaged text account limits s host
        = ⟨.error e, s, (evaluate text account limits (Overlay.ofBase s) host).host,
          (evaluate text account limits (Overlay.ofBase s) host).journal⟩ := by
      simp only [evaluateStaged, hr, hd]
    rw [hstaged]
    refine ⟨rfl, hh, fun _ he => ?_, fun _ _ => rfl, fun e' he => ?_⟩
    · cases he
    · obtain ⟨hstore, hhost⟩ := evaluate_of_compile_error (hd.trans he)
      exact ⟨hstore, hhost, rfl, hh.trans hhost⟩

end Proviso
