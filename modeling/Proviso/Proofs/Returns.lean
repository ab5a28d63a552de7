import Mathlib.Control.Monad.Basic
import Proviso.Proofs.Blocks
import Proviso.Proofs.Decoding
import Proviso.Proofs.Termination

/-!
# Bodies return

A body that is entered is left by the `end` that closes it, and the program goes on behind the
branch. On any bytes one of two things happens to a continuation that is noted: it is still noted
when the run ends, or the program returns to it from exactly the body that it was noted for
(`Machine.returns_or_within`).

None is still noted where all bodies are closed. Only the last body of an assembly can be open, and
it is if its last token was read as an operand: moving a body behind the main block adds an `end`
unless the last token is one already, whatever that token will be read as. A run into such a body
goes on to the end of the program and stops there as if all were done
(`open_body_skips_what_follows`). `Assembly.Framed` is the invariant: every position is in a block
that is closed, or has nothing to return to, or is open and was entered.

Main statement: `compiled_bodies_return`.
-/

namespace Proviso

/-! ### Open bodies -/

namespace Assembly

/-- Of the bodies that are read, only the last one can be open. -/
theorem closed_or_last_of_bodiesOf {reg : Registry} {ts : List Token}
    {bs cs : List (Token × List (Instr Token))} {b : Token × List (Instr Token)}
    (h : bodiesOf reg ts = .ok (bs ++ b :: cs)) : Closed b.2 ∨ cs = [] := by
  generalize hall : bs ++ b :: cs = all at h
  fun_induction bodiesOf reg ts generalizing bs all with
  | case1 =>
    cases h
    simp at hall
  | case2 | case3 | case4 => cases h
  | case5 label r _ is rest hb bs' hbs ih =>
    cases h
    cases bs with
    | nil =>
      cases hall
      -- an open block takes up all tokens, so that no body comes behind it
      refine (TokenReader.block_inv reg r hb).2.imp_right ?_
      rintro rfl
      rw [bodiesOf] at hbs
      cases hbs
      rfl
    | cons b' bs =>
      cases hall
      exact ih _ rfl hbs

variable {tokens : List Token} {a : Assembly}

/-- Every body but the last one is closed. -/
theorem closed_or_last_of_ofTokens {reg : Registry} (h : ofTokens reg tokens = .ok a)
    {bs cs : List (Token × List (Instr Token))} {b : Token × List (Instr Token)}
    (hb : a.bodies = bs ++ b :: cs) : Closed b.2 ∨ cs = [] := by
  unfold ofTokens at h
  split at h
  · cases h
  · next main rest _ =>
    cases hbodies : bodiesOf reg rest with
    | error e => rw [hbodies] at h; cases h
    | ok all =>
      rw [hbodies] at h
      cases h
      obtain rfl : all = bs ++ b :: cs := hb
      exact closed_or_last_of_bodiesOf hbodies

/-- The last body is open, and this is its label. -/
def OpensLast (a : Assembly) (l : Token) : Prop :=
  ∃ body, a.bodies.getLast? = some (l, body) ∧ ¬ Closed body

/-- A body is closed, or it is the last one and goes up to the end of the program. -/
theorem closed_or_opensLast {reg : Registry} (h : ofTokens reg tokens = .ok a) {l : Token}
    {body : List (Instr Token)} (hb : a.bodies.lookup l = some body) :
    Closed body ∨ a.OpensLast l ∧ a.size ≤ a.offsetOf l + sizeSum body := by
  by_cases hclosed : Closed body
  · exact .inl hclosed
  obtain ⟨bs, cs, hbodies, hne⟩ := List.lookup_eq_some_iff.mp hb
  obtain rfl : cs = [] := (closed_or_last_of_ofTokens h hbodies).resolve_left hclosed
  refine .inr ⟨⟨body, by rw [hbodies]; simp, hclosed⟩, ?_⟩
  rw [offsetOf_of_split hbodies (List.lookup_eq_none_iff.mpr hne), ← sizeSum_append, size, instrs,
    hbodies]
  simp

end Assembly

/-! ### Blocks to their ends -/

/-- Each position is in a block that goes on to its end: to the instruction that closes it, or to
the end of the program. The latter may only be if nothing is to return to, or if what is to return
to is `excused`. -/
def Assembly.Framed (a : Assembly) (excused : List Nat → Prop) : List Nat → Prop
  | []         => True
  | k :: conts =>
    (∃ conts' is, a.At k is ∧ Machine.Ends a k conts' is ∧ (conts' = conts ∨ excused conts)) ∧
      a.Framed excused conts

theorem Assembly.Linked.length_eq {a : Assembly} {code : List UInt8} (hl : a.Linked code)
    {p : Program} (hc : p.code = code.toArray) : p.length = a.size := by
  rw [Program.length, hc, List.size_toArray, hl.length_code]

namespace Machine

variable {σ : Type} [Store σ] {tokens : List Token} {a : Assembly} {code : List UInt8}
  {m m₁ m' : Machine σ} {excused : List Nat → Prop}

/-- A step keeps the position and the continuations in blocks that go on to their ends, if what an
open body is entered with is excused. -/
theorem framed_of_step (ha : Assembly.ofTokens .standard tokens = .ok a) (hl : a.Linked code)
    (hc : m.program.code = code.toArray)
    (h : a.Framed excused (m.program.pc :: m.program.continuations))
    (hs : m.step = (.ok (), m'))
    (hopen : ∀ l, a.OpensLast l → m'.program.pc = a.offsetOf l →
      excused m'.program.continuations) :
    m'.program.code = code.toArray ∧
      a.Framed excused (m'.program.pc :: m'.program.continuations) := by
  have hsize := hl.length_eq hc
  have hpc := pc_lt_length_of_step hs
  obtain ⟨⟨conts, is, hat, hends, hexcused⟩, hconts⟩ := h
  cases is with
  | nil => exact absurd (hsize ▸ hpc) (Nat.not_lt.mpr hends.of_nil.2)
  | cons i is =>
    rcases step_at hl hc hat with ⟨f, w, pc, -, he⟩ | ⟨c, w, r, p, hp, hf, he⟩
    · rw [he] at hs
      cases hs
    rw [he] at hs
    obtain ⟨rfl, rfl⟩ := Prod.mk.inj hs
    have hleads := i.leads_perform m.work c w hp
    cases c with
    | next =>
      cases hf
      exact ⟨hc, ⟨conts, is, hat.tail, hends.tail hleads, hexcused⟩, hconts⟩
    | enter l =>
      obtain ⟨body, hb⟩ := hl.resolved i hat.mem l hleads
      have hback := hends.tail (Instr.opcode_ne_close_of_mem_labels hleads)
      obtain rfl := (Program.enter_eq_ok hf).2
      refine ⟨hc, ?_, ⟨conts, is, hat.tail, hback, hexcused⟩, hconts⟩
      rcases Assembly.closed_or_opensLast ha hb with hclosed | ⟨hlast, hle⟩
      · exact ⟨_, body, Assembly.at_offsetOf hb, .inl hclosed, .inl rfl⟩
      · exact ⟨[], body, Assembly.at_offsetOf hb, .inr ⟨rfl, hle⟩, .inr (hopen l hlast rfl)⟩
    | leave =>
      rcases follow_leave_eq_ok hf with ⟨hnil, rfl⟩ | ⟨k, r, hcons, rfl⟩
      · have hend : a.At m.program.length [] := by
          rw [hsize]
          exact a.at_size
        exact ⟨hc, ⟨[], [], hend, .inr ⟨rfl, Nat.le_of_eq hsize.symm⟩, .inl hnil.symm⟩, hconts⟩
      · have hcons' : m.program.continuations = k :: r := hcons
        rw [hcons'] at hconts
        exact ⟨hc, hconts⟩

/-- A step can be added at the end. -/
theorem Steps.snoc (h : Steps m m₁) (hs : m₁.step = (.ok (), m')) : Steps m m' := by
  induction h with
  | refl => exact .more hs (.refl _)
  | more h _ ih => exact .more h (ih hs)

/-- What is left to return to at the end of a run was noted by the branch into an open body. -/
theorem open_of_run (ha : Assembly.ofTokens .standard tokens = .ok a) (hl : a.Linked code)
    {account : Address} {limits : Limits} {store : σ} {host : Host}
    (hr : runCode code account limits store host = (.ok (), m)) :
    m.program.continuations = [] ∨
      ∃ l m₁, a.OpensLast l ∧ ((fresh account limits store host).load code.toArray).Steps m₁ ∧
        m₁.program.pc = a.offsetOf l ∧
        m₁.program.continuations = m.program.continuations := by
  let start := (fresh account limits store host).load code.toArray
  let excused (conts : List Nat) : Prop :=
    ∃ l m₁, a.OpensLast l ∧ start.Steps m₁ ∧ m₁.program.pc = a.offsetOf l ∧
      m₁.program.continuations = conts
  let P (m : Machine σ) : Prop :=
    start.Steps m ∧ m.program.code = code.toArray ∧
      a.Framed excused (m.program.pc :: m.program.continuations)
  have h₀ : P start :=
    ⟨.refl _, rfl, ⟨[], a.main, a.at_main, ends_main (Assembly.ofTokens_inv ha).2, .inl rfl⟩,
      trivial⟩
  obtain ⟨m', ht, ⟨hend, hrun⟩ | ⟨f, m'', -, -, hrun⟩⟩ := run_follows_steps start
  · obtain rfl : m' = m := (Prod.mk.inj (hrun.symm.trans hr)).2
    obtain ⟨-, hc, ⟨conts, is, hat, hends, hexcused⟩, -⟩ : P m' := by
      refine ht.keeps h₀ fun m₁ m₂ h hs => ⟨h.1.snoc hs, ?_⟩
      exact framed_of_step ha hl h.2.1 h.2.2 hs fun l hlast hpc =>
        ⟨l, m₂, hlast, h.1.snoc hs, hpc, rfl⟩
    -- no instruction stands at the end of the program, so the block has come to its end
    cases is with
    | nil => exact hexcused.imp_left fun he => he.symm.trans hends.of_nil.1
    | cons i is => exact absurd hat.lt_size (Nat.not_lt.mpr (hl.length_eq hc ▸ hend))
  · cases hrun.symm.trans hr

end Machine

/-! ### Entering and returning -/

namespace Program.Goes

variable {p p' : Program} {next k : Nat} {top : Option Cell} {i : Instr Nat} {conts : List Nat}

/-- What is noted stays noted, unless the body is closed and the program returns. -/
theorem suffix (h : p.Goes next top i p') (hk : k :: conts <:+ p.continuations) :
    k :: conts <:+ p'.continuations ∨
      (i = ⟨.close, ()⟩ ∧ p.continuations = k :: conts ∧ p' = ⟨p.code, k, conts⟩) := by
  cases h with
  | on | skip => exact .inl hk
  | enter | choose | call => exact .inl (hk.trans (List.suffix_cons _ _))
  | halt hnil =>
    rw [hnil] at hk
    exact absurd (List.suffix_nil.mp hk) (List.cons_ne_nil _ _)
  | back hcons =>
    rw [hcons] at hk
    rcases List.suffix_cons_iff.mp hk with he | hk
    · cases he
      exact .inr ⟨rfl, hcons, rfl⟩
    · exact .inl hk

/-- What is noted is the position behind the instruction. -/
theorem next_of_noted (h : p.Goes next top i p') (hk : p'.continuations = k :: p.continuations) :
    next = k := by
  have hlen := congrArg List.length hk
  rw [List.length_cons] at hlen
  cases h with
  | on | skip | halt => exact absurd hlen (Nat.ne_of_lt (Nat.lt_succ_self _))
  | enter | choose | call => exact (List.cons.inj hk).1
  | @back _ r hcons =>
    rw [hcons, List.length_cons] at hlen
    change r.length = r.length + 1 + 1 at hlen
    omega

end Program.Goes

namespace Machine

variable {σ : Type} [Store σ] {m m' : Machine σ}

/-- Steps that succeed, during which the continuations `base` stay noted. -/
inductive Within (base : List Nat) : Machine σ → Machine σ → Prop where
  | refl {m : Machine σ} (h : base <:+ m.program.continuations) : Within base m m
  | more {m m₁ m' : Machine σ} (h : base <:+ m.program.continuations)
      (hs : m.step = (.ok (), m₁)) (t : Within base m₁ m') : Within base m m'

/-- What was to return to at the start is still there. -/
theorem Within.suffix {base : List Nat} (h : Within base m m') :
    base <:+ m'.program.continuations := by
  induction h with
  | refl h => exact h
  | more _ _ _ ih => exact ih

/-- From inside a body the program comes to the `end` that closes it, returns to `k`, and goes on
until `m'`; meanwhile what it enters returns before. -/
def Returns (k : Nat) (conts : List Nat) (m m' : Machine σ) : Prop :=
  ∃ m₁ m₂ next, Within (k :: conts) m m₁ ∧ m₁.program.continuations = k :: conts ∧
    decodeAt Reader.runnable m₁.program.code m₁.program.pc = (.ok ⟨.close, ()⟩, next) ∧
    m₁.step = (.ok (), m₂) ∧ m₂.program = ⟨m₁.program.code, k, conts⟩ ∧ Steps m₂ m'

/-- A run from inside a body never leaves it, or it returns. -/
theorem returns_or_within {k : Nat} {conts : List Nat} (hr : Steps m m')
    (h : k :: conts <:+ m.program.continuations) :
    Within (k :: conts) m m' ∨ m.Returns k conts m' := by
  induction hr with
  | refl m => exact .inl (.refl h)
  | @more m m₁ m' hs ht ih =>
    obtain ⟨i, next, hd, hgoes⟩ := step_goes hs
    rcases hgoes.suffix h with hkept | ⟨rfl, hconts, hback⟩
    · rcases ih hkept with hin | ⟨m₂, m₃, next', hin, hrest⟩
      · exact .inl (.more h hs hin)
      · exact .inr ⟨m₂, m₃, next', .more h hs hin, hrest⟩
    · exact .inr ⟨m, m₁, next, .refl h, hconts, hd, hs, hback, ht⟩

/-- A run is the same from any machine on its way. -/
theorem run_of_steps (h : Steps m m') : m.run = m'.run := by
  induction h with
  | refl => rfl
  | more hs _ ih => rw [run_of_step_ok hs, ih]

/-- A step that notes a continuation has read a branch, and what it notes is the position behind
it. The run returns there, or it ends before. -/
theorem returns_of_enter {m₁ m₂ : Machine σ} {k : Nat} (hr : m.run = (.ok (), m'))
    (ht : Steps m m₁) (hs : m₁.step = (.ok (), m₂))
    (hk : m₂.program.continuations = k :: m₁.program.continuations) :
    (∃ i, decodeAt Reader.runnable m₁.program.code m₁.program.pc = (.ok i, k)) ∧
      (m₂.Returns k m₁.program.continuations m' ∨
        k :: m₁.program.continuations <:+ m'.program.continuations) := by
  obtain ⟨i, next, hd, hgoes⟩ := step_goes hs
  obtain rfl := hgoes.next_of_noted hk
  refine ⟨⟨i, hd⟩, ?_⟩
  have hrun : m₂.run = (.ok (), m') := by rw [← run_of_step_ok hs, ← run_of_steps ht, hr]
  obtain ⟨m₃, ht₂, ⟨-, hrun₂⟩ | ⟨f, m₄, -, -, hrun₂⟩⟩ := run_follows_steps m₂
  · rw [hrun] at hrun₂
    cases hrun₂
    exact (returns_or_within ht₂ (hk ▸ List.suffix_refl _)).symm.imp_right Within.suffix
  · rw [hrun] at hrun₂
    cases hrun₂

end Machine

/-! ### Compiled texts -/

/-- A text has bytes if its tokens can be read as an assembly that links. -/
theorem compile_eq_ok {text : String} {code : List UInt8} (h : compile text = .ok code) :
    ∃ tokens a, preprocess .standard text = .ok tokens ∧
      Assembly.ofTokens .standard tokens = .ok a ∧ a.link = .ok code := by
  unfold compile at h
  cases hp : preprocess .standard text with
  | error e =>
    rw [hp] at h
    cases h
  | ok tokens =>
    rw [hp] at h
    obtain ⟨a, ha, hl⟩ := assemble_eq_ok h
    exact ⟨tokens, a, rfl, ha, hl⟩

/-- **Bodies return.** In a run of a compiled text that ends well, every branch that was taken has
noted the position behind it, and the body has returned there by its own `end`, unless that position
is still noted when the program is at its end. None is, unless the run went into the last body of
the program and that body does not end with the instruction that closes it. -/
theorem compiled_bodies_return {σ : Type} [Store σ] {text : String} {code : List UInt8}
    (hc : compile text = .ok code) (account : Address) (limits : Limits) (store : σ) (host : Host)
    {m : Machine σ} (hr : runCode code account limits store host = (.ok (), m)) :
    ∃ tokens a, preprocess .standard text = .ok tokens ∧
      Assembly.ofTokens .standard tokens = .ok a ∧ a.link = .ok code ∧
      (m.program.continuations = [] ∨
        ∃ l m₁, a.OpensLast l ∧
          ((Machine.fresh account limits store host).load code.toArray).Steps m₁ ∧
          m₁.program.pc = a.offsetOf l ∧
          m₁.program.continuations = m.program.continuations) ∧
      ∀ m₁ m₂ k,
        ((Machine.fresh account limits store host).load code.toArray).Steps m₁ →
        m₁.step = (.ok (), m₂) → m₂.program.continuations = k :: m₁.program.continuations →
        (∃ i, decodeAt Reader.runnable m₁.program.code m₁.program.pc = (.ok i, k)) ∧
          (m₂.Returns k m₁.program.continuations m ∨
            k :: m₁.program.continuations <:+ m.program.continuations) := by
  obtain ⟨tokens, a, hp, ha, hlink⟩ := compile_eq_ok hc
  exact ⟨tokens, a, hp, ha, hlink, Machine.open_of_run ha (Assembly.linked_of_tokens ha hlink) hr,
    fun m₁ m₂ k ht hs hk => Machine.returns_of_enter hr ht hs hk⟩

/-- A branch that is taken: its body pushes a flag and returns behind the branch. -/
theorem compiled_bodies_return_of_if :
    let code := [0x31, 1, 0x20, 0, 8, 0x31, 1, 0x23, 0x31, 0, 0x23]
    let m₀ := (Machine.fresh .zero .default (.empty : Storage) .empty).load code.toArray
    let m := (runCode code .zero .default (.empty : Storage) .empty).2
    compile "bool true if L L \x7b bool false \x7d bool true" = .ok code ∧
      (runCode code .zero .default (.empty : Storage) .empty).1 = .ok () ∧
      m.program.continuations = [] ∧ m₀.step.2.step.2.Returns 5 [] m := by
  intro code m₀ m
  have hc : compile "bool true if L L \x7b bool false \x7d bool true" = .ok code := by
    decide +kernel
  have hr : (runCode code .zero .default (.empty : Storage) .empty).1 = .ok () := by decide +kernel
  have hend : m.program.continuations = [] := by decide +kernel
  have hflag : m₀.step.1 = .ok () := by decide +kernel
  have hif : m₀.step.2.step.1 = .ok () := by decide +kernel
  have hnil : m₀.step.2.program.continuations = [] := by decide +kernel
  have hnoted : m₀.step.2.step.2.program.continuations
      = 5 :: m₀.step.2.program.continuations := by decide +kernel
  have hrun : runCode code .zero .default (.empty : Storage) .empty = (.ok (), m) :=
    Prod.ext hr rfl
  have hm₀ : (Machine.fresh .zero .default (.empty : Storage) .empty).load code.toArray = m₀ := rfl
  refine ⟨hc, hr, hend, ?_⟩
  -- from here on what the machines are does not matter
  clear_value code m m₀
  obtain ⟨-, -, -, -, -, -, h⟩ := compiled_bodies_return hc _ _ _ _ hrun
  rw [hm₀] at h
  rcases (h _ _ _ (.of_fst hflag (.refl _)) (Prod.ext hif rfl) hnoted).2 with hreturns | hsuffix
  · rwa [hnil] at hreturns
  · rw [hend] at hsuffix
    cases List.suffix_nil.mp hsuffix

/-- A body whose `end` is the name of an array does not return: the run ends well inside it, the
position behind the branch is still noted, and the flag that follows is not pushed. -/
theorem open_body_skips_what_follows :
    let code := [0x31, 1, 0x20, 0, 8, 0x31, 0, 0x23, 0x60, 1, 0x65, 0x6e, 0x64]
      ++ List.replicate 29 0
    let m := (runCode code .zero .default (.empty : Storage) .empty).2
    compile "bool true if L L \x7b declareArr uint256 end \x7d bool false" = .ok code ∧
      (runCode code .zero .default (.empty : Storage) .empty).1 = .ok () ∧
      m.program.continuations = [5] ∧ m.top? = none := by
  decide +kernel

end Proviso
