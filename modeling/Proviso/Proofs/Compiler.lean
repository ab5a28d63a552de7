import Mathlib.Control.Monad.Basic
import Proviso.Proofs.Lexing
import Proviso.Proofs.Values

/-!
# Expressions are evaluated as they read

The evaluation of a text that writes an expression down gives the value of the expression, or fails
with the fault of the expression, and changes nothing else (`evaluate_expression`).

Each pass has its lemma: the text is cut into tokens (`Token.Spells.tokenize`), numerals become
plain (`Tree.Rendered.normalize`), operators move behind their operands
(`Postfix.convert_rendered`), the tokens are read as instructions (`Tree.reads_postorder`), and
these leave the value on the stack (`Tree.performAll_instrs`).
-/

namespace Proviso

/-! ### Passes -/

namespace Operator

theorem isNumeric_token (op : Operator) : Token.isNumeric op.token = false := by
  rcases op with c | c | c <;> cases c <;> decide

theorem unitExponent?_token (op : Operator) : Numeral.unitExponent? op.token = none := by
  rcases op with c | c | c <;> cases c <;> decide

/-- An operator is no word of a shorthand, a call or a body. -/
theorem isPlain_token (op : Operator) : op.token.IsPlain := by
  rcases op with c | c | c <;> cases c <;> exact ⟨by decide, by decide⟩

end Operator

namespace Tree

/-- Numerals become plain in a rendered tree, and the tree is still rendered. -/
theorem Rendered.normalize {level : Nat} {e : Tree Atom} {ts : List Token}
    (h : Rendered Atom.tokens level e ts) :
    ∃ us, Rendered Atom.plainTokens level e us ∧
      ∀ r, r.head?.bind Numeral.unitExponent? = none →
        Numeral.normalize (ts ++ r) = (Numeral.normalize r).map (us ++ ·) := by
  -- a unit behind the last numeral would belong to it, so none may follow
  induction h with
  | atom level a => exact ⟨a.plainTokens, .atom level a, fun r hr => a.normalize_tokens hr⟩
  | @paren level e ts h ih =>
    obtain ⟨us, hus, heq⟩ := ih
    refine ⟨"(" :: (us ++ [")"]), .paren level hus, fun r _ => ?_⟩
    have hts : "(" :: (ts ++ [")"]) ++ r = "(" :: (ts ++ ")" :: r) := by simp
    have hunit : (")" :: r).head?.bind Numeral.unitExponent? = none := rfl
    rw [hts, Numeral.normalize_of_not_numeric (by decide), heq (")" :: r) hunit,
      Numeral.normalize_of_not_numeric (by decide)]
    cases Numeral.normalize r <;> simp [Except.map]
  | @negation level e ts h ih =>
    obtain ⟨us, hus, heq⟩ := ih
    refine ⟨Operator.negation :: us, .negation level hus, fun r hr => ?_⟩
    rw [List.cons_append, Numeral.normalize_of_not_numeric (by decide), heq r hr]
    cases Numeral.normalize r <;> rfl
  | @binary level op lhs rhs ts us hle hl hr ihl ihr =>
    obtain ⟨ts', hts, heql⟩ := ihl
    obtain ⟨us', hus, heqr⟩ := ihr
    refine ⟨ts' ++ op.token :: us', .binary hle hts hus, fun r hr => ?_⟩
    rw [List.append_assoc, List.cons_append, heql (op.token :: (us ++ r)) op.unitExponent?_token,
      Numeral.normalize_of_not_numeric op.isNumeric_token, heqr r hr]
    cases Numeral.normalize r <;> simp [Except.map]

/-- The tokens of an expression in postfix order start no shorthand, call or body. -/
theorem isPlain_postorder (e : Tree Atom) : ∀ t ∈ e.postorder Atom.plainTokens, t.IsPlain := by
  induction e with
  | atom a => exact fun t ht => (a.stays_plainTokens t ht).plain
  | negation e ih =>
    intro t ht
    rcases List.mem_append.mp ht with ht | ht
    · exact ih t ht
    · rw [List.mem_singleton.mp ht]
      exact ⟨by decide, by decide⟩
  | binary op lhs rhs ihl ihr =>
    intro t ht
    rcases List.mem_append.mp ht with ht | ht
    · rcases List.mem_append.mp ht with ht | ht
      · exact ihl t ht
      · exact ihr t ht
    · rw [List.mem_singleton.mp ht]
      exact op.isPlain_token

open TokenReader in
/-- The postorder of an expression is read as its instructions. -/
theorem reads_postorder (e : Tree Atom) :
    Reads .standard (e.postorder Atom.plainTokens) e.instrs := by
  induction e with
  | atom a => exact a.reads_plainTokens
  | negation e ih => exact ih.append (Reads.of_operands .not (fun r => rfl) (by rintro ⟨⟩))
  | binary op lhs rhs ihl ihr =>
    refine (ihl.append ihr).append ?_
    cases op with
    | compare c => exact Reads.of_operands (.compare c) (fun r => rfl) (by rintro ⟨⟩)
    | connect c => exact Reads.of_operands (.connect c) (fun r => rfl) (by rintro ⟨⟩)
    | compute a => exact Reads.of_operands (.compute a) (fun r => rfl) (by rintro ⟨⟩)

end Tree

/-- A text that writes an expression down reaches the assembler as the postorder of the
expression. -/
theorem preprocess_expression {text : String} {ts : List Token} {e : Tree Atom}
    (ht : Token.Spells text ts) (hr : Tree.Rendered Atom.tokens 0 e ts) :
    preprocess .standard text = .ok (e.postorder Atom.plainTokens) := by
  obtain ⟨us, hus, hnorm⟩ := hr.normalize
  have hnorm : Numeral.normalize ts = .ok us := by
    have h := hnorm [] rfl
    rw [List.append_nil] at h
    rw [h]
    exact congrArg Except.ok (List.append_nil us)
  have hplain := e.isPlain_postorder
  have hconv : Postfix.convert .standard us = .ok (e.postorder Atom.plainTokens) :=
    Postfix.convert_rendered hus e.known_standard fun a _ t ht => (a.stays_plainTokens t ht).inert
  have hsugar : Sugar.expand (e.postorder Atom.plainTokens) = .ok (e.postorder Atom.plainTokens) :=
    Sugar.expandFrom_plain hplain none
  simp only [preprocess, ht.tokenize, hnorm, hconv, hsugar, Call.expand_plain hplain,
    Body.hoist_plain hplain, bind, Except.bind]

/-! ### The whole way -/

/-- **Expressions mean what they say.** Take any expression, any text that writes it down, and any
account, store and host. If its code is not too large and the stack has the room that it needs, the
evaluation of the text gives the value of the expression, or fails with the fault of the first node
that has none; store and host are as before, and no request was made. -/
theorem evaluate_expression {σ : Type} [Store σ] {text : String} {ts : List Token} {e : Tree Atom}
    (ht : Token.Spells text ts) (hr : Tree.Rendered Atom.tokens 0 e ts)
    (hsize : e.size ≤ Assembly.maxSize) (account : Address) (limits : Limits)
    (hneed : e.need ≤ limits.maxStack) (store : σ) (host : Host) :
    (∃ code, compile text = .ok code ∧ code.length = e.size) ∧
    evaluate text account limits store host = {
      result := match e.eval account store host with
        | .ok c    => .ok (some c)
        | .error f => .error (.fault f)
      store := store
      host := host
      journal := [] } := by
  have hpre := preprocess_expression ht hr
  have hbytes : Assembly.sizeSum e.instrs ≤ Assembly.maxSize := e.sizeSum_instrs.symm ▸ hsize
  refine ⟨⟨_, compile_straight hpre e.reads_postorder e.isStraight_instrs hbytes, ?_⟩, ?_⟩
  · rw [Assembly.length_encode, Assembly.size, Assembly.instrs]
    simp [e.sizeSum_instrs]
  · have hrun : Leaves (e.eval account store host)
        ⟨account, .empty limits.maxStack, store, host, []⟩
        (Effect.performAll e.instrs ⟨account, .empty limits.maxStack, store, host, []⟩) :=
      e.performAll_instrs ⟨account, .empty limits.maxStack, store, host, []⟩
        (le_of_eq_of_le (Nat.zero_add _) hneed)
    rw [evaluate_straight hpre e.reads_postorder e.isStraight_instrs hbytes]
    cases hv : e.eval account store host with
    | ok c =>
      rw [hv] at hrun
      rw [show Effect.performAll e.instrs _ = _ from hrun]
      rfl
    | error f =>
      rw [hv] at hrun
      obtain ⟨s, hs⟩ := hrun
      rw [hs]
      rfl

/-- A factor from the store, a numeral with its unit, parentheses that negation needs, others that
nothing needs, and a comment. -/
theorem evaluate_negated_comparison :
    ∃ (e : Tree Atom) (ts : List Token),
      Token.Spells "!((loadLocal uint x) * 2 > 1.5GWEI) // spare" ts ∧
      Tree.Rendered Atom.tokens 0 e ts ∧ e.size ≤ Assembly.maxSize ∧ e.need ≤ 2 ∧
      evaluate "!((loadLocal uint x) * 2 > 1.5GWEI) // spare" .zero ⟨2, 0⟩ (.empty : Storage) .empty
        = ⟨.ok (some (.flag true)), .empty, .empty, []⟩ := by
  let x : Atom := .stored "uint" .uint256 "x" (by decide)
    ⟨by decide, by decide +kernel, by decide, by decide⟩
  let two : Atom := .number
    ⟨['2'], none, none, by simp, by simp; rfl, by simp, by simp, by simp⟩
    .none ⟨2, by decide⟩ (by decide) (by rfl)
  let bound : Atom := .number
    ⟨['1'], some ['5'], none, by simp, by simp; rfl, by simp; rfl, by simp, by simp⟩
    (.attached .gwei) ⟨1500000000, by decide⟩ (by decide)
    (by unfold Numeral.Parts.Denotes Numeral.Parts.Amounts; decide)
  let e : Tree Atom := .negation (.binary (.compare .gt)
    (.binary (.compute .mul) (.atom x) (.atom two)) (.atom bound))
  let ts : List Token :=
    ["!", "(", "(", "loadLocal", "uint", "x", ")", "*", "2", ">", "1.5GWEI", ")"]
  have hr : Tree.Rendered Atom.tokens 0 e ts :=
    (congrArg (Tree.Rendered Atom.tokens 0 e) (by decide +kernel)).mp <|
      .negation 0 <| .paren _ <|
        .binary (by decide) (.binary (by decide) (.paren _ (.atom 0 x)) (.atom _ two))
          (.atom _ bound)
  have blank : Token.Gap [' '] := .separator rfl .nil
  have hshown : Token.Shown ts "!((loadLocal uint x) * 2 > 1.5GWEI) // spare".toList :=
    (congrArg₂ Token.Shown (by decide +kernel) (by decide +kernel)).mp <|
      .word_bracket (t := "!") (by decide +kernel) rfl <|
      .bracket (c := '(') rfl .nil <|
      .bracket (c := '(') rfl .nil <|
      .word_blank (t := "loadLocal") (by decide +kernel) <|
      .word_blank (t := "uint") (by decide +kernel) <|
      .word_bracket (t := "x") (by decide +kernel) rfl <|
      .bracket (c := ')') rfl blank <|
      .word_blank (t := "*") (by decide +kernel) <|
      .word_blank (t := "2") (by decide +kernel) <|
      .word_blank (t := ">") (by decide +kernel) <|
      .word_bracket (t := "1.5GWEI") (by decide +kernel) rfl <|
      .bracket (c := ')') rfl blank <|
      @Token.Shown.comment " spare".toList (by decide +kernel)
  have ht : Token.Spells "!((loadLocal uint x) * 2 > 1.5GWEI) // spare" ts :=
    ⟨[], _, rfl, .nil, hshown⟩
  have hval : e.eval .zero (.empty : Storage) .empty = .ok (.flag true) := by decide +kernel
  have h := evaluate_expression ht hr (by decide) .zero ⟨2, 0⟩ (by decide)
    (.empty : Storage) .empty
  rw [hval] at h
  exact ⟨e, ts, ht, hr, by decide, by decide, h.2⟩

end Proviso
