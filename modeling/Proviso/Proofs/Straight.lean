import Proviso.Proofs.Blocks

/-!
# Straight programs

A program without shorthands, calls and bodies. The passes behind the postfix order leave its tokens
as they are, they are read as one open block, and the block links if it is not too large. A run
carries out its instructions one after another.
-/

namespace Proviso

/-! ### Tokens that stay -/

/-- The words that start a shorthand, a call or a body, or end one. -/
def constructWords : List Token :=
  ["insert", "sumOf", "struct", "func", "endf", "branch", Token.lbrace, Token.rbrace]

/-- A token that the passes behind the postfix order leave as it is. -/
structure Token.IsPlain (t : Token) : Prop where
  not_array : Token.dropEnding? ['[', ']'] t.toList = none
  not_word : t ∉ constructWords

theorem Token.IsPlain.ne {t w : Token} (h : t.IsPlain) (hw : w ∈ constructWords) : t ≠ w := by
  rintro rfl
  exact h.not_word hw

section Passes

variable {t : Token} {ts r : List Token} {reg : Registry}

theorem Sugar.construct_plain (h : t.IsPlain) (last : Option Token) (r : List Token) :
    construct last t r = .ok ([t], r) :=
  construct_of_ne h.not_array (h.ne (by decide)) (h.ne (by decide)) (h.ne (by decide)) last r

/-- Plain tokens are no shorthands. -/
theorem Sugar.expandFrom_plain (h : ∀ t ∈ ts, t.IsPlain) (last : Option Token) :
    expandFrom last ts = .ok ts := by
  induction ts generalizing last with
  | nil => rw [expandFrom]
  | cons t ts ih =>
    obtain ⟨ht, hts⟩ := List.forall_mem_cons.mp h
    rw [expandFrom_cons (construct_plain ht last ts), ih hts]
    rfl

theorem Call.item_plain (h : t.IsPlain) (r : List Token) : item t r = .ok ([t], r) := by
  unfold item
  rw [if_neg (h.ne (by decide))]
  exact if_neg (h.ne (by decide))

/-- Plain tokens are no calls. -/
theorem Call.expand_plain (h : ∀ t ∈ ts, t.IsPlain) : expand ts = .ok ts := by
  induction ts with
  | nil => rw [expand]
  | cons t ts ih =>
    obtain ⟨ht, hts⟩ := List.forall_mem_cons.mp h
    rw [expand]
    split
    · next he =>
      rw [item_plain ht] at he
      cases he
    · next he =>
      rw [item_plain ht] at he
      cases he
      rw [ih hts]
      rfl

theorem Body.piece_plain (h : t.IsPlain) (hr : r.head? ≠ some Token.lbrace) (seen : List Token) :
    piece reg seen t r = .ok (.main t, r) := by
  unfold piece
  rw [if_neg (h.ne (by decide)), if_neg (h.ne (by decide)), if_neg (h.ne (by decide))]
  split
  · exact absurd rfl hr
  · rfl

/-- Plain tokens are all of the main block. -/
theorem Body.pieces_plain (h : ∀ t ∈ ts, t.IsPlain) (seen : List Token) :
    pieces reg seen ts = .ok (ts.map .main) := by
  induction ts generalizing seen with
  | nil => rw [pieces]; rfl
  | cons t ts ih =>
    obtain ⟨ht, hts⟩ := List.forall_mem_cons.mp h
    have hr : ts.head? ≠ some Token.lbrace := by
      cases ts with
      | nil => simp
      | cons u ts => exact fun he => (hts u (.head _)).ne (by decide) (Option.some.inj he)
    rw [pieces]
    split
    · next he =>
      rw [piece_plain ht hr] at he
      cases he
    · next he =>
      rw [piece_plain ht hr] at he
      cases he
      rw [ih hts]
      rfl

/-- Without bodies, nothing moves and nothing is closed. -/
theorem Body.hoist_plain (h : ∀ t ∈ ts, t.IsPlain) : hoist reg ts = .ok ts := by
  have hb : bodies (ts.map .main) = [] := by
    rw [bodies, List.filterMap_map, List.filterMap_eq_nil_iff]
    intro t _
    rfl
  have hm : mainTokens (ts.map .main) = ts := by
    rw [mainTokens, List.filterMap_map]
    exact List.filterMap_some
  rw [hoist, pieces_plain h]
  show Except.ok (layout (ts.map .main)) = _
  rw [layout, hb, hm]
  rfl

end Passes

/-! ### Reading -/

namespace TokenReader

/-- The tokens are read as these instructions, in front of any others. -/
def Reads (reg : Registry) (ts : List Token) (is : List (Instr Token)) : Prop :=
  ∀ r js rest, block reg r = (.ok js, rest) → block reg (ts ++ r) = (.ok (is ++ js), rest)

variable {reg : Registry} {ts us : List Token} {is js : List (Instr Token)} {i : Instr Token}

/-- Tokens that are read as instructions can be put together. -/
theorem Reads.append (h : Reads reg ts is) (h' : Reads reg us js) :
    Reads reg (ts ++ us) (is ++ js) := by
  intro r ks rest hr
  rw [List.append_assoc, List.append_assoc]
  exact h _ _ _ (h' r ks rest hr)

/-- An instruction may leave tokens for what is read behind it. -/
theorem Reads.cons {t : Token} (hi : ∀ r, instr reg t (ts ++ (us ++ r)) = (.ok i, us ++ r))
    (hc : i.opcode ≠ .close) (h : Reads reg us is) : Reads reg (t :: (ts ++ us)) (i :: is) := by
  intro r js rest hr
  rw [List.cons_append, List.append_assoc, block]
  split
  · next he =>
    rw [hi] at he
    cases he
  · next he =>
    rw [hi] at he
    cases he
    rw [if_neg hc, h r js rest hr]
    rfl

theorem Reads.nil : Reads reg [] [] :=
  fun _ _ _ h => h

theorem Reads.of_instr {t : Token} (hi : ∀ r, instr reg t (ts ++ r) = (.ok i, r))
    (hc : i.opcode ≠ .close) : Reads reg (t :: ts) [i] := by
  have h := Reads.cons hi hc .nil
  rwa [List.append_nil] at h

/-- Such tokens make an assembly without bodies. -/
theorem Reads.ofTokens (h : Reads reg ts is) : Assembly.ofTokens reg ts = .ok ⟨is, []⟩ := by
  have hb : block reg ts = (.ok is, []) := by
    have hnil := h [] [] [] (by rw [block])
    rwa [List.append_nil, List.append_nil] at hnil
  rw [Assembly.ofTokens, hb]
  show (Assembly.bodiesOf reg []).map _ = _
  rw [Assembly.bodiesOf]
  rfl

end TokenReader

/-! ### Running -/

/-- An instruction that names no body and closes none. -/
def Instr.IsStraight {L : Type} (i : Instr L) : Prop :=
  i.labels = [] ∧ i.opcode ≠ .close

/-- It leads to the next instruction. -/
theorem Instr.IsStraight.eq_next {σ L : Type} [Store σ] {i : Instr L} (h : i.IsStraight)
    {w w' : Workspace σ} {c : Control L} (hp : i.perform w = (.ok c, w')) : c = .next := by
  have hleads := i.leads_perform w c w' hp
  cases c with
  | next => rfl
  | enter target =>
    rw [Leads, h.1] at hleads
    cases hleads
  | leave => exact absurd hleads h.2

/-- Instructions without labels link, if they are not too many. -/
theorem Assembly.link_straight {is : List (Instr Token)} (h : ∀ i ∈ is, i.IsStraight)
    (hs : sizeSum is ≤ maxSize) : Assembly.link ⟨is, []⟩ = .ok (Assembly.encode ⟨is, []⟩) := by
  have hi : Assembly.instrs ⟨is, []⟩ = is := List.append_nil is
  have ht : Assembly.targets ⟨is, []⟩ = [] := by
    rw [targets, hi, List.flatMap_eq_nil_iff]
    exact fun i hm => (h i hm).1
  have hd : Assembly.defect? ⟨is, []⟩ = none := by
    rw [defect?, ht, size, hi]
    show (if maxSize < sizeSum is then some (CompileError.programTooLarge (sizeSum is)) else none)
      = none
    exact if_neg (Nat.not_lt.mpr hs)
  rw [link, hd]

namespace Effect

variable {σ : Type} [Store σ]

/-- Carries out instructions one after another. -/
def performAll : List (Instr Token) → Effect σ Unit
  | []      => return ()
  | i :: is => do
      let _ ← i.perform
      performAll is

theorem performAll_append (is js : List (Instr Token)) :
    (performAll (is ++ js) : Effect σ Unit) = (do performAll is; performAll js) := by
  induction is with
  | nil => rfl
  | cons i is ih =>
    show (do let _ ← i.perform; performAll (is ++ js)) = _
    rw [ih]
    exact (bind_assoc _ _ _).symm

/-- A block of such instructions is carried out from first to last. -/
theorem block_straight {is : List (Instr Token)} (h : ∀ i ∈ is, i.IsStraight)
    (enter : Token → Effect σ Unit) : block enter is = performAll is := by
  induction is with
  | nil => rfl
  | cons i is ih =>
    obtain ⟨hi, his⟩ := List.forall_mem_cons.mp h
    rw [block_cons, Instr.perform_bind_of_plain hi.1 hi.2, Control.within, ih his]
    rfl

end Effect

/-- **A stretch of straight instructions.** Where they stand in a linked program, the machine goes
over them as they are carried out one after another, and comes to what stands behind them. -/
theorem Machine.steps_straight {σ : Type} [Store σ] {a : Assembly} {code : List UInt8}
    (hl : a.Linked code) {is js : List (Instr Token)} (h : ∀ i ∈ is, i.IsStraight) {m : Machine σ}
    (hc : m.program.code = code.toArray) (hat : a.At m.program.pc (is ++ js)) {w : Workspace σ}
    (hp : Effect.performAll is m.work = (.ok (), w)) :
    Steps m { m with
      program := m.program.moveTo (m.program.pc + Assembly.sizeSum is), work := w } := by
  induction is generalizing m with
  | nil =>
    cases hp
    exact .refl m
  | cons i is ih =>
    obtain ⟨hi, his⟩ := List.forall_mem_cons.mp h
    rcases hperform : i.perform m.work with ⟨f | c, w₁⟩
    · rw [Effect.performAll, Act.bind_of_error hperform] at hp
      cases hp
    · obtain rfl := hi.eq_next hperform
      rw [Effect.performAll, Act.bind_of_ok hperform] at hp
      have hrest := ih his
        (m := { m with program := m.program.moveTo (m.program.pc + i.size), work := w₁ }) hc
        hat.tail hp
      have hsize : Assembly.sizeSum (i :: is) = i.size + Assembly.sizeSum is := rfl
      rw [hsize, ← Nat.add_assoc]
      exact .more (step_of_perform_next hl hc hat hperform) hrest

/-- Tokens that are read as straight instructions, if they are not too large, have their code. -/
theorem assemble_straight {ts : List Token} {is : List (Instr Token)}
    (hr : TokenReader.Reads .standard ts is) (h : ∀ i ∈ is, i.IsStraight)
    (hs : Assembly.sizeSum is ≤ Assembly.maxSize) :
    assemble ts = .ok (Assembly.encode ⟨is, []⟩) := by
  rw [assemble, hr.ofTokens]
  exact Assembly.link_straight h hs

/-- A text whose tokens are read as straight instructions, if they are not too large, is compiled to
their code. -/
theorem compile_straight {text : String} {ts : List Token} {is : List (Instr Token)}
    (hpre : preprocess .standard text = .ok ts) (hr : TokenReader.Reads .standard ts is)
    (h : ∀ i ∈ is, i.IsStraight) (hs : Assembly.sizeSum is ≤ Assembly.maxSize) :
    compile text = .ok (Assembly.encode ⟨is, []⟩) := by
  rw [compile, hpre]
  exact assemble_straight hr h hs

/-- The evaluation that a run of instructions ends in. -/
def Evaluation.ofRun {σ : Type} : Except Fault Unit × Workspace σ → Evaluation σ
  | (.ok (), w)   => ⟨.ok w.stack.top?, w.store, w.host, w.journal⟩
  | (.error f, w) => ⟨.error (.fault f), w.store, w.host, w.journal⟩

/-- Such a text is evaluated by carrying the instructions out one after another. -/
theorem evaluate_straight {σ : Type} [Store σ] {text : String} {ts : List Token}
    {is : List (Instr Token)} (hpre : preprocess .standard text = .ok ts)
    (hr : TokenReader.Reads .standard ts is) (h : ∀ i ∈ is, i.IsStraight)
    (hs : Assembly.sizeSum is ≤ Assembly.maxSize) (account : Address) (limits : Limits) (store : σ)
    (host : Host) :
    evaluate text account limits store host
      = .ofRun (Effect.performAll is ⟨account, .empty limits.maxStack, store, host, []⟩) := by
  have hlinked := Assembly.linked_of_tokens hr.ofTokens (Assembly.link_straight h hs)
  have hrun : (Machine.runFrom (Assembly.encode ⟨is, []⟩).toArray limits.maxCalls 0 []
      : Effect σ Unit) = Effect.performAll is := by
    rw [Assembly.runFrom_eq_interpret hlinked (.inr rfl) (List.forall_mem_nil _)]
    exact Effect.block_straight h _
  have hcode : Effect.performAll is ⟨account, .empty limits.maxStack, store, host, []⟩
      = ((runCode (Assembly.encode ⟨is, []⟩) account limits store host).1,
        (runCode (Assembly.encode ⟨is, []⟩) account limits store host).2.work) :=
    (congrFun hrun _).symm
  rw [evaluate, compile_straight hpre hr h hs, hcode]
  dsimp only
  rcases runCode (Assembly.encode ⟨is, []⟩) account limits store host with ⟨f | ⟨⟩, m⟩ <;> rfl

end Proviso
