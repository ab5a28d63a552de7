import Proviso.Proofs.Footprint
import Proviso.Proofs.Values
import Proviso.Proofs.Words

/-!
# Arguments of calls

A call with arguments is written out as a chain of bindings: each argument is pushed and then stored
in the slot of its parameter, the first argument first. Arguments are read from the storage that
parameters are written to. So an argument has the value that it had before the call, unless it is a
variable in the slot of an earlier parameter: that one has been bound by then, and the argument gets
its new value. Nothing but the parameters is written (`Machine.call_binds_arguments`).

A call of `F` with a number and with its own first parameter passes the number twice
(`Machine.second_argument_follows_first_parameter`).
-/

namespace Proviso

namespace Call

/-- The slot that argument number `n` of a function is bound to. -/
def parameter (function : Token) (n : Nat) : Slot :=
  .ofName (function ++ "_" ++ Nat.repr n)

/-- An argument as it is written: a decimal literal in range, or the name of a variable. -/
inductive Argument where
  | literal (token : Token) (value : UInt256) (spelt : UInt256.ofDecimal? token = some value)
  | var (name : Token) (not_numeric : Token.isNumeric name = false) (not_end : name ≠ "endf")

namespace Argument

/-- The token that spells an argument. -/
def token : Argument → Token
  | .literal t _ _ => t
  | .var x _ _     => x

/-- The slot of a variable. -/
def slot? : Argument → Option Slot
  | .literal _ _ _ => none
  | .var x _ _     => some (.ofName x)

/-- The integer that an argument denotes, given the words in local slots. -/
def value (locals : Slot → Word) : Argument → UInt256
  | .literal _ v _ => v
  | .var x _ _     => (locals (.ofName x)).toUInt256

/-- The instruction that pushes the argument. -/
def instr : Argument → Instr Token
  | .literal _ v _ => ⟨.literal .integer, (v, ())⟩
  | .var x _ _     => ⟨.loadLocal, (.uint256, .ofName x, ())⟩

/-- The value of an argument depends on no other slot than its own. -/
theorem value_congr {a : Argument} {locals locals' : Slot → Word}
    (h : ∀ k ∈ a.slot?, locals k = locals' k) : a.value locals = a.value locals' := by
  cases a with
  | literal => rfl
  | var x _ _ => exact congrArg Word.toUInt256 (h _ rfl)

/-- The value of a variable is the word in its slot. -/
theorem value_of_slot? {a : Argument} {k : Slot} (h : a.slot? = some k) (locals : Slot → Word) :
    a.value locals = (locals k).toUInt256 := by
  cases a with
  | literal => cases h
  | var x _ _ => cases h; rfl

end Argument

/-- The instructions that bind the arguments from number `n` on. -/
def bindingInstrs (function : Token) : Nat → List Argument → List (Instr Token)
  | _, []      => []
  | n, a :: as =>
      a.instr :: ⟨.set .integer, (parameter function n, ())⟩ :: bindingInstrs function (n + 1) as

/-! ### From tokens to instructions -/

theorem isNumeric_of_natOfDigits? {t : Token} {n : Nat} (h : natOfDigits? t.toList = some n) :
    Token.isNumeric t = true := by
  rw [natOfDigits?] at h
  split at h
  · next hd =>
    rw [Token.isNumeric]
    cases ht : t.toList with
    | nil => exact absurd ht hd.1
    | cons c cs =>
      have hall := hd.2
      rw [ht, List.all_cons, Bool.and_eq_true] at hall
      exact hall.1
  · cases h

theorem isNumeric_of_ofDecimal? {t : Token} {v : UInt256} (h : UInt256.ofDecimal? t = some v) :
    Token.isNumeric t = true := by
  obtain ⟨n, hn, -⟩ := Option.bind_eq_some_iff.mp h
  exact isNumeric_of_natOfDigits? hn

/-- A count is a numeric token, so it is told from the name of a body. -/
theorem isNumeric_of_argumentCount? {t : Token} {n : Nat} (h : argumentCount? t = some n) :
    Token.isNumeric t = true :=
  isNumeric_of_natOfDigits? (Option.filter_eq_some_iff.mp h).1

theorem Argument.token_ne_endf (a : Argument) : a.token ≠ "endf" := by
  cases a with
  | literal t v h =>
    rintro rfl
    exact absurd (isNumeric_of_ofDecimal? h) (by decide)
  | var _ _ hne => exact hne

/-- A call is written out as its bindings and the call of the function. -/
theorem expand_call (function : Token) {count : Token} {args : List Argument}
    (hcount : argumentCount? count = some args.length) :
    expand ("func" :: function :: count :: (args.map Argument.token ++ ["endf"]))
      = .ok (bindings function 1 (args.map Argument.token) ++ ["func", function]) := by
  have hne : ∀ t ∈ args.map Argument.token, (t != "endf") = true := by
    intro t ht
    obtain ⟨a, -, rfl⟩ := List.mem_map.mp ht
    exact bne_iff_ne.mpr a.token_ne_endf
  have hcall : callWith function count (args.map Argument.token ++ ["endf"])
      = .ok (bindings function 1 (args.map Argument.token) ++ ["func", function], []) := by
    have htake : (args.map Argument.token ++ ["endf"]).takeWhile (· != "endf")
        = args.map Argument.token := by
      rw [List.takeWhile_append_of_pos hne]
      exact List.append_nil _
    have hdrop : (args.map Argument.token ++ ["endf"]).dropWhile (· != "endf") = ["endf"] :=
      List.dropWhile_append_of_pos hne
    rw [callWith, hcount]
    dsimp only
    rw [htake, hdrop, List.length_map]
    exact if_pos rfl
  have hitem : item "func" (function :: count :: (args.map Argument.token ++ ["endf"]))
      = .ok (bindings function 1 (args.map Argument.token) ++ ["func", function], []) := by
    have hfunc : "func" = Opcode.call.mnemonic := rfl
    rw [item, if_neg (by decide), if_pos hfunc, isNumeric_of_argumentCount? hcount, if_pos rfl,
      hcall]
  rw [expand]
  split
  · next he =>
    rw [hitem] at he
    cases he
  · next he =>
    rw [hitem] at he
    cases he
    rw [expand]
    simp

open TokenReader in
/-- The bindings are read as their instructions. -/
theorem reads_bindings (function : Token) (n : Nat) (args : List Argument) :
    Reads .standard (bindings function n (args.map Argument.token))
      (bindingInstrs function n args) := by
  induction args generalizing n with
  | nil => exact .nil
  | cons a args ih =>
    have hset : Reads .standard
        [(Opcode.set .integer).mnemonic, function ++ "_" ++ Nat.repr n]
        [⟨.set .integer, (parameter function n, ())⟩] :=
      Reads.of_operands (.set .integer) (fun r => operands_cons rfl rfl) (by rintro ⟨⟩)
    cases a with
    | literal t v h =>
      have hpush : Reads .standard [(Opcode.literal .integer).mnemonic, t]
          [⟨.literal .integer, (v, ())⟩] :=
        Reads.of_operands (.literal .integer)
          (fun r => operands_cons (reading_of_some h r) rfl) (by rintro ⟨⟩)
      rw [List.map_cons, bindings, Argument.token, if_pos (isNumeric_of_ofDecimal? h)]
      exact (hpush.append hset).append (ih (n + 1))
    | var x h _ =>
      have hpush : Reads .standard [Opcode.loadLocal.mnemonic, ValueKind.uint256.name, x]
          [⟨.loadLocal, (.uint256, .ofName x, ())⟩] :=
        Reads.of_operands .loadLocal
          (fun r => operands_cons rfl (operands_cons rfl rfl)) (by rintro ⟨⟩)
      rw [List.map_cons, bindings, Argument.token, h, if_neg Bool.false_ne_true]
      exact (hpush.append hset).append (ih (n + 1))

theorem isStraight_bindingInstrs (function : Token) (n : Nat) (args : List Argument) :
    ∀ i ∈ bindingInstrs function n args, i.IsStraight := by
  induction args generalizing n with
  | nil => exact List.forall_mem_nil _
  | cons a args ih =>
    refine List.forall_mem_cons.mpr ⟨?_, List.forall_mem_cons.mpr ⟨⟨rfl, by rintro ⟨⟩⟩, ih (n + 1)⟩⟩
    cases a <;> exact ⟨rfl, by rintro ⟨⟩⟩

/-! ### What the bindings leave -/

section Bound

variable {σ : Type} [Store σ]

/-- The workspace after the arguments from number `n` on are bound, one after another. -/
def boundFrom (function : Token) : Nat → List Argument → Workspace σ → Workspace σ
  | _, [],      w => w
  | n, a :: as, w =>
      boundFrom function (n + 1) as
        (w.written (parameter function n) (.ofUInt256 (a.value w.locals)))

variable {function : Token} {n : Nat} {args : List Argument} {w : Workspace σ}

/-- Arguments are bound from left to right. -/
theorem boundFrom_append (as bs : List Argument) :
    boundFrom function n (as ++ bs) w
      = boundFrom function (as.length + n) bs (boundFrom function n as w) := by
  induction as generalizing n w with
  | nil => rw [List.length_nil, Nat.zero_add]; rfl
  | cons a as ih =>
    rw [List.cons_append, boundFrom, ih, boundFrom, List.length_cons, Nat.add_assoc,
      Nat.add_comm n]

/-- With room for one cell, the instructions bind the arguments and leave the stack as it was. -/
theorem performAll_bindingInstrs (hroom : w.stack.depth < w.stack.limit) :
    Effect.performAll (bindingInstrs function n args) w
      = (.ok (), boundFrom function n args w) := by
  induction args generalizing n w with
  | nil => rfl
  | cons a args ih =>
    have hpush : a.instr.perform w = (.ok .next, w.pushed (.integer (a.value w.locals))) := by
      cases a <;> exact Effect.pushResult_next hroom (.ok _)
    have hset : (⟨.set .integer, (parameter function n, ())⟩ : Instr Token).perform
        (w.pushed (.integer (a.value w.locals)))
          = (.ok .next, w.written (parameter function n) (.ofUInt256 (a.value w.locals))) := rfl
    rw [bindingInstrs, Effect.performAll, Act.bind_of_ok hpush, Effect.performAll,
      Act.bind_of_ok hset, boundFrom]
    exact ih hroom

/-- Bindings change the storage only. -/
theorem boundFrom_eq (function : Token) (n : Nat) (args : List Argument) (w : Workspace σ) :
    ∃ s, boundFrom function n args w = { w with store := s } := by
  induction args generalizing n w with
  | nil => exact ⟨w.store, rfl⟩
  | cons a args ih => exact ih (n + 1) _

variable [LawfulStore σ]

/-- Only parameters are written. -/
theorem changesOnly_boundFrom (n : Nat) (args : List Argument) (w : Workspace σ) :
    w.ChangesOnly (fun k => ∃ i < args.length, k = parameter function (i + n))
      (boundFrom function n args w) := by
  induction args generalizing n w with
  | nil => exact .of_eq rfl rfl
  | cons a args ih =>
    have hfirst : ∃ i < args.length + 1, parameter function n = parameter function (i + n) :=
      ⟨0, Nat.succ_pos _, by rw [Nat.zero_add]⟩
    refine .trans (.put hfirst _) ((ih (n + 1) _).mono ?_)
    rintro k ⟨i, hi, rfl⟩
    exact ⟨i + 1, Nat.succ_lt_succ hi, by rw [Nat.add_assoc, Nat.add_comm n]⟩

/-- A slot that is no parameter keeps its word. -/
theorem locals_boundFrom_of_ne {k : Slot} (h : ∀ i < args.length, k ≠ parameter function (i + n)) :
    (boundFrom function n args w).locals k = w.locals k :=
  (changesOnly_boundFrom n args w).locals_eq fun ⟨i, hi, hk⟩ => h i hi hk

/-- **What each parameter holds.** An argument is read when the parameters before it have been bound
and those behind it have not. -/
theorem locals_boundFrom_parameter
    (hslots : ∀ i < args.length, ∀ j < args.length,
      parameter function (i + n) = parameter function (j + n) → i = j)
    {i : Nat} {a : Argument} (ha : args[i]? = some a) :
    ((∀ j < i, a.slot? ≠ some (parameter function (j + n))) →
      (boundFrom function n args w).locals (parameter function (i + n))
        = .ofUInt256 (a.value w.locals)) ∧
    ∀ j < i, a.slot? = some (parameter function (j + n)) →
      (boundFrom function n args w).locals (parameter function (i + n))
        = (boundFrom function n args w).locals (parameter function (j + n)) := by
  obtain ⟨before, behind, rfl, rfl⟩ :
      ∃ before behind, args = before ++ a :: behind ∧ before.length = i := by
    obtain ⟨hi, rfl⟩ := List.getElem?_eq_some_iff.mp ha
    refine ⟨args.take i, args.drop (i + 1), ?_, List.length_take_of_le (Nat.le_of_lt hi)⟩
    rw [← List.drop_eq_getElem_cons hi, List.take_append_drop]
  have hlen : (before ++ a :: behind).length = before.length + behind.length + 1 := by simp; omega
  let w₁ := boundFrom function n before w
  let w₂ := w₁.written (parameter function (before.length + n)) (.ofUInt256 (a.value w₁.locals))
  have hfinal : boundFrom function n (before ++ a :: behind) w
      = boundFrom function (before.length + n + 1) behind w₂ :=
    boundFrom_append before (a :: behind)
  -- no binding behind this one is to a parameter up to it
  have hkeep : ∀ j ≤ before.length,
      (boundFrom function (before.length + n + 1) behind w₂).locals (parameter function (j + n))
        = w₂.locals (parameter function (j + n)) := by
    intro j hj
    refine locals_boundFrom_of_ne fun l hl he => ?_
    have hindex : l + (before.length + n + 1) = (l + 1 + before.length) + n := by omega
    have hjl := hslots j (by omega) (l + 1 + before.length) (by omega) (hindex ▸ he)
    omega
  have hself : (boundFrom function n (before ++ a :: behind) w).locals
      (parameter function (before.length + n)) = .ofUInt256 (a.value w₁.locals) := by
    rw [hfinal, hkeep _ (Nat.le_refl _), Workspace.locals_written, if_pos rfl]
  rw [hself]
  constructor
  · intro hnot
    refine congrArg Word.ofUInt256 (Argument.value_congr fun k hk => ?_)
    exact locals_boundFrom_of_ne fun j hj he => hnot j hj (he ▸ hk)
  · intro j hj hslot
    have hne : parameter function (before.length + n) ≠ parameter function (j + n) := by
      intro he
      have hij := hslots before.length (by omega) j (by omega) he
      omega
    rw [Argument.value_of_slot? hslot, Word.ofUInt256_toUInt256, hfinal,
      hkeep j (Nat.le_of_lt hj), Workspace.locals_written, if_neg hne]

end Bound

end Call

/-! ### Calls in a program -/

namespace Machine

open Call

variable {σ : Type} [Store σ] {a : Assembly} {code : List UInt8}

/-- The machine goes over the bindings of a call to what stands behind them. -/
theorem steps_bindings (hl : a.Linked code) (function : Token) (args : List Argument)
    {rest : List (Instr Token)} {m : Machine σ} (hc : m.program.code = code.toArray)
    (hat : a.At m.program.pc (bindingInstrs function 1 args ++ rest))
    (hroom : m.work.stack.depth < m.work.stack.limit) :
    Steps m { m with
      program := m.program.moveTo
        (m.program.pc + Assembly.sizeSum (bindingInstrs function 1 args))
      work := boundFrom function 1 args m.work } :=
  steps_straight hl (isStraight_bindingInstrs function 1 args) hc hat
    (performAll_bindingInstrs hroom)

/-- **Arguments are bound one after another.** A call with arguments is written out as bindings and
the call of the function. Where the slots of its parameters are different from each other and the
stack has room for one cell, the instructions of the bindings run up to the call and leave in each
parameter the value that its argument had before the call; but where the argument is a variable in
the slot of an earlier parameter, the new value of that parameter. No other slot changes, and
nothing but storage does. -/
theorem call_binds_arguments [LawfulStore σ] {function count : Token} {args : List Argument}
    (hcount : argumentCount? count = some args.length)
    (hslots : ∀ i < args.length, ∀ j < args.length,
      parameter function (i + 1) = parameter function (j + 1) → i = j)
    {tokens : List Token} (hp : Assembly.ofTokens .standard tokens = .ok a)
    (hlink : a.link = .ok code) {m : Machine σ} (hc : m.program.code = code.toArray)
    {rest : List (Instr Token)}
    (hat : a.At m.program.pc (bindingInstrs function 1 args ++ rest))
    (hroom : m.work.stack.depth < m.work.stack.limit) :
    expand ("func" :: function :: count :: (args.map Argument.token ++ ["endf"]))
      = .ok (bindings function 1 (args.map Argument.token) ++ ["func", function]) ∧
    TokenReader.Reads .standard (bindings function 1 (args.map Argument.token))
      (bindingInstrs function 1 args) ∧
    ∃ w s, w = { m.work with store := s } ∧
      Steps m { m with
        program := m.program.moveTo
          (m.program.pc + Assembly.sizeSum (bindingInstrs function 1 args))
        work := w } ∧
      (∀ i arg, args[i]? = some arg →
        ((∀ j < i, arg.slot? ≠ some (parameter function (j + 1))) →
          w.locals (parameter function (i + 1)) = .ofUInt256 (arg.value m.work.locals)) ∧
        ∀ j < i, arg.slot? = some (parameter function (j + 1)) →
          w.locals (parameter function (i + 1)) = w.locals (parameter function (j + 1))) ∧
      m.work.ChangesOnly (fun k => ∃ i < args.length, k = parameter function (i + 1)) w := by
  obtain ⟨s, hs⟩ := boundFrom_eq function 1 args m.work
  refine ⟨expand_call function hcount, reads_bindings function 1 args, ?_⟩
  exact ⟨boundFrom function 1 args m.work, s, hs,
    steps_bindings (Assembly.linked_of_tokens hp hlink) function args hc hat hroom,
    fun i arg harg => locals_boundFrom_parameter hslots harg, changesOnly_boundFrom 1 args m.work⟩

/-! ### A function that is called with its own parameter -/

/-- A number, and the first parameter of `F`. -/
def sevenAndParameter : List Argument :=
  [.literal "7" ⟨7, by decide⟩ (by decide), .var "F_1" (by decide) (by decide)]

/-- The call of `F` with these arguments, written out, and an empty body. -/
def callWithParameter : List Token :=
  bindings "F" 1 (sevenAndParameter.map Argument.token) ++ ["func", "F", "end", "F", "end"]

/-- The instructions of this program. -/
def callWithParameterInstrs : Assembly where
  main := bindingInstrs "F" 1 sevenAndParameter ++ [⟨.call, ("F", ())⟩, ⟨.close, ()⟩]
  bodies := [("F", [⟨.close, ()⟩])]

theorem first_ne_second : parameter "F" 1 ≠ parameter "F" 2 := by
  decide +kernel

theorem parameters_ne : ∀ i < sevenAndParameter.length, ∀ j < sevenAndParameter.length,
    parameter "F" (i + 1) = parameter "F" (j + 1) → i = j := by
  have hlen : sevenAndParameter.length = 2 := rfl
  intro i hi j hj h
  obtain rfl | rfl : i = 0 ∨ i = 1 := by omega
  · obtain rfl | rfl : j = 0 ∨ j = 1 := by omega
    · rfl
    · exact absurd h first_ne_second
  · obtain rfl | rfl : j = 0 ∨ j = 1 := by omega
    · exact absurd h.symm first_ne_second
    · rfl

/-- The second argument names the first parameter, which is bound by then: it gives seven. -/
theorem locals_second_parameter [LawfulStore σ] (w : Workspace σ) :
    (boundFrom "F" 1 sevenAndParameter w).locals (parameter "F" 2)
      = .ofUInt256 ⟨7, by decide⟩ := by
  have hfirst := (locals_boundFrom_parameter (w := w) parameters_ne
    (show sevenAndParameter[0]? = some _ from rfl)).1 fun j hj => absurd hj (Nat.not_lt_zero j)
  have hsecond := (locals_boundFrom_parameter (w := w) parameters_ne
    (show sevenAndParameter[1]? = some _ from rfl)).2 0 Nat.zero_lt_one rfl
  exact hsecond.trans hfirst

open TokenReader in
theorem ofTokens_callWithParameter :
    Assembly.ofTokens .standard callWithParameter = .ok callWithParameterInstrs := by
  have hend : ∀ r, block .standard ("end" :: r) = (.ok [⟨.close, ()⟩], r) := by
    intro r
    rw [block]
    rfl
  have hcall : Reads .standard [Opcode.call.mnemonic, "F"] [⟨.call, ("F", ())⟩] :=
    Reads.of_operands .call (fun r => operands_cons rfl rfl) (by rintro ⟨⟩)
  have hmain : block .standard callWithParameter
      = (.ok callWithParameterInstrs.main, ["F", "end"]) :=
    reads_bindings "F" 1 sevenAndParameter _ _ _ (hcall _ _ _ (hend ["F", "end"]))
  have hbodies : Assembly.bodiesOf .standard ["F", "end"] = .ok callWithParameterInstrs.bodies := by
    have hfree : isTaken .standard "F" = false := by decide
    rw [Assembly.bodiesOf, hfree, if_neg Bool.false_ne_true]
    split
    · next he =>
      rw [hend] at he
      cases he
    · next he =>
      rw [hend] at he
      cases he
      rw [Assembly.bodiesOf]
      rfl
  rw [Assembly.ofTokens, hmain]
  dsimp only
  rw [hbodies]
  rfl

theorem link_callWithParameter :
    callWithParameterInstrs.link = .ok callWithParameterInstrs.encode := by
  have hdefect : callWithParameterInstrs.defect? = none := by decide +kernel
  rw [Assembly.link, hdefect]

/-- With five in the first parameter, both parameters are seven at the call. -/
theorem call_binds_arguments_of_parameter :
    let store := Store.put (Table.empty : Storage) .zero (.ofName "F_1") (.ofUInt256 ⟨5, by decide⟩)
    let m := (fresh .zero .default store .empty).load callWithParameterInstrs.encode.toArray
    argumentCount? "2" = some sevenAndParameter.length ∧
    Assembly.ofTokens .standard callWithParameter = .ok callWithParameterInstrs ∧
    callWithParameterInstrs.link = .ok callWithParameterInstrs.encode ∧
    ∃ m', Steps m m' ∧
      m'.work.locals (parameter "F" 1) = .ofUInt256 ⟨7, by decide⟩ ∧
      m'.work.locals (parameter "F" 2) = m'.work.locals (parameter "F" 1) := by
  intro store m
  have hcount : argumentCount? "2" = some sevenAndParameter.length := by decide
  obtain ⟨-, -, w, -, -, hsteps, hbound, -⟩ :=
    call_binds_arguments hcount parameters_ne ofTokens_callWithParameter link_callWithParameter
      (m := m) rfl (Assembly.at_main _) (by decide)
  have hfirst := (hbound 0 _ rfl).1 fun j hj => absurd hj (Nat.not_lt_zero j)
  have hsecond := (hbound 1 _ rfl).2 0 (Nat.zero_lt_one) rfl
  exact ⟨hcount, ofTokens_callWithParameter, link_callWithParameter, _, hsteps, hfirst, hsecond⟩

/-- **An argument does not always keep its value.** Before the call the second argument, the first
parameter of `F`, is five. The call passes seven for it. -/
theorem second_argument_follows_first_parameter :
    let store := Store.put (Table.empty : Storage) .zero (.ofName "F_1") (.ofUInt256 ⟨5, by decide⟩)
    let m := (fresh .zero .default store .empty).load callWithParameterInstrs.encode.toArray
    expand ["func", "F", "2", "7", "F_1", "endf"]
      = .ok ["uint256", "7", "setUint256", "F_1", "loadLocal", "uint256", "F_1", "setUint256",
        "F_2", "func", "F"] ∧
    Slot.ofName "F_1" ≠ .ofName "F_2" ∧
    assemble ["uint256", "7", "setUint256", "F_1", "loadLocal", "uint256", "F_1", "setUint256",
      "F_2", "func", "F", "end", "F", "end"] = .ok callWithParameterInstrs.encode ∧
    m.work.locals (.ofName "F_1") = .ofUInt256 ⟨5, by decide⟩ ∧
    ∃ m', Steps m m' ∧ callWithParameterInstrs.At m'.program.pc [⟨.call, ("F", ())⟩, ⟨.close, ()⟩] ∧
      m'.work.locals (.ofName "F_2") = .ofUInt256 ⟨7, by decide⟩ ∧
      m'.work.locals (.ofName "F_2") ≠ m.work.locals (.ofName "F_1") := by
  intro store m
  have hfive : m.work.locals (.ofName "F_1") = .ofUInt256 ⟨5, by decide⟩ := by
    show Store.load store .zero (.ofName "F_1") = _
    rw [Store.load_put, if_pos rfl]
  have hseven := locals_second_parameter m.work
  have hlinked := Assembly.linked_of_tokens ofTokens_callWithParameter link_callWithParameter
  have hat := Assembly.at_main callWithParameterInstrs
  refine ⟨by decide +kernel, first_ne_second, ?_, hfive, _,
    steps_bindings hlinked "F" sevenAndParameter rfl hat (by decide), hat.behind, hseven, ?_⟩
  · have htokens : callWithParameter = ["uint256", "7", "setUint256", "F_1", "loadLocal", "uint256",
        "F_1", "setUint256", "F_2", "func", "F", "end", "F", "end"] := by decide
    rw [← htokens, assemble, ofTokens_callWithParameter]
    exact link_callWithParameter
  · rw [hfive]
    exact fun he => absurd (hseven.symm.trans he) (by decide)

end Machine

end Proviso
