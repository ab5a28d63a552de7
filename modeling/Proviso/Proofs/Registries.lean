import Proviso.Proofs.Atoms
import Proviso.Proofs.Registration

/-!
# Expressions under any registry of standard entries

A registry may hold only some of the standard entries. It then has only some of the operators, each
with its usual precedence; the names of the others are plain words under it, and may stand in the
operands of an expression.

Main statement: under every such registry the conversion puts an expression over its operators into
the postorder of its tree, however the expression is written down
(`Postfix.convert_of_standard_entries`).
-/

namespace Proviso

/-! ### Operators of a registry -/

namespace Registry

/-- All entries of the registry are standard ones. -/
def IsStandard (reg : Registry) : Prop :=
  ∀ e ∈ reg.entries, e ∈ standard.entries

instance (reg : Registry) : Decidable reg.IsStandard :=
  inferInstanceAs (Decidable (∀ e ∈ reg.entries, e ∈ standard.entries))

variable {reg : Registry} {t : Token}

/-- What a token names under a registry of standard entries is a standard entry. -/
theorem IsStandard.lookup?_eq_some (h : reg.IsStandard) {e : Entry}
    (hl : reg.lookup? t = some e) : ∃ op, e = .ofOpcode op ∧ op.mnemonic = resolveAlias t := by
  obtain ⟨hmem, hname⟩ := mem_of_find?_key hl
  obtain ⟨op, -, rfl⟩ := List.mem_map.mp (h e hmem)
  exact ⟨op, rfl, hname⟩

/-- An operator is a name whose form has a precedence. -/
theorem operator?_eq_some_iff {form : Form} :
    reg.operator? t = some form ↔
      ∃ e, reg.lookup? t = some e ∧ e.form = form ∧ form.precedence?.isSome = true := by
  rw [operator?, Option.bind_eq_some_iff]
  refine exists_congr fun e => and_congr_right fun _ => ?_
  constructor
  · intro h
    split at h
    · next hp =>
      cases h
      exact ⟨rfl, hp⟩
    · cases h
  · rintro ⟨rfl, hp⟩
    exact if_pos hp

/-- An operator under a registry of standard entries is one by its own name, and has its standard
form. -/
theorem IsStandard.operator?_eq_some (h : reg.IsStandard) {form : Form}
    (ho : reg.operator? t = some form) : ∃ op : Opcode, op.mnemonic = t ∧ op.form = form := by
  obtain ⟨e, hl, hform, hp⟩ := operator?_eq_some_iff.mp ho
  obtain ⟨op, rfl, hname⟩ := h.lookup?_eq_some hl
  refine ⟨op, ?_, hform⟩
  rw [hname, resolveAlias]
  refine if_neg ?_
  -- the one alias stands for the name of a literal, and that is no operator
  rintro rfl
  have hliteral : op = .literal .integer := Opcode.mnemonic_inj hname
  subst hliteral hform
  cases hp

end Registry

namespace Operator

/-- An operator has its precedence in the registry. -/
theorem form_opcode (op : Operator) : op.opcode.form = .binary op.precedence := by
  rcases op with c | c | c <;> cases c <;> rfl

/-- The opcodes that can be operators are negation and those that stand between operands. -/
theorem eq_of_form {op : Opcode} (h : op.form.precedence?.isSome = true) :
    op = .not ∨ ∃ o : Operator, op = o.opcode := by
  cases op with
  | compare c => exact .inr ⟨.compare c, rfl⟩
  | connect c => exact .inr ⟨.connect c, rfl⟩
  | compute a => exact .inr ⟨.compute a, rfl⟩
  | not => exact .inl rfl
  | _ => cases h

end Operator

/-- The operators that a registry of standard entries can have, with their precedences. -/
theorem Registry.IsStandard.operator?_cases {reg : Registry} (h : reg.IsStandard) {t : Token}
    {form : Form} (ho : reg.operator? t = some form) :
    (t = Operator.negation ∧ form = .unary Operator.tightest) ∨
      ∃ op : Operator, t = op.token ∧ form = .binary op.precedence := by
  obtain ⟨-, -, -, hp⟩ := operator?_eq_some_iff.mp ho
  obtain ⟨op, rfl, rfl⟩ := h.operator?_eq_some ho
  rcases Operator.eq_of_form hp with rfl | ⟨op, rfl⟩
  · exact .inl ⟨rfl, rfl⟩
  · exact .inr ⟨op, rfl, op.form_opcode⟩

namespace Tree

variable {α : Type}

/-- The tokens of the operators in a tree. -/
def operators : Tree α → List Token
  | .atom _            => []
  | .negation e        => Operator.negation :: e.operators
  | .binary op lhs rhs => op.token :: (lhs.operators ++ rhs.operators)

/-- A registry of standard entries that has the operators of a tree has them with the usual
precedences. -/
theorem known_of_operators {reg : Registry} (hreg : reg.IsStandard) {e : Tree α}
    (h : ∀ t ∈ e.operators, (reg.operator? t).isSome = true) : e.Known reg := by
  have hform : ∀ op : Opcode, (reg.operator? op.mnemonic).isSome = true →
      reg.operator? op.mnemonic = some op.form := by
    intro op hop
    obtain ⟨form, hform⟩ := Option.isSome_iff_exists.mp hop
    obtain ⟨op', hname, rfl⟩ := hreg.operator?_eq_some hform
    rw [hform, Opcode.mnemonic_inj hname]
  induction e with
  | atom a => trivial
  | negation e ih =>
    obtain ⟨hneg, he⟩ := List.forall_mem_cons.mp h
    exact ⟨hform .not hneg, ih he⟩
  | binary op lhs rhs ihl ihr =>
    obtain ⟨hop, hsides⟩ := List.forall_mem_cons.mp h
    obtain ⟨hl, hr⟩ := List.forall_mem_append.mp hsides
    refine ⟨?_, ihl hl, ihr hr⟩
    rw [← op.form_opcode]
    exact hform op.opcode hop

end Tree

/-! ### The conversion -/

namespace Postfix

/-- An operand of an expression: some tokens, none of which is an operator or a parenthesis under
the registry or ends an expression. -/
structure Phrase (reg : Registry) where
  tokens : List Token
  tokens_ne : tokens ≠ []
  inert : ∀ t ∈ tokens, Inert reg t

/-- **The conversion is right under every registry of standard entries.** The operators that such a
registry has are those of trees, with their precedences. Take a tree over operators that the
registry has, and any way to write it down: a left operand without parentheses is a phrase, a
negation, or an operator that binds at least as tightly; a right one is a phrase, a negation, or an
operator that binds more tightly; behind a negation stands a phrase or another negation; and
parentheses may stand anywhere. The conversion succeeds with the tokens in the postorder of the
tree, each phrase left whole. -/
theorem convert_of_standard_entries {reg : Registry} (hreg : reg.IsStandard) :
    (∀ t form, reg.operator? t = some form →
      (t = Operator.negation ∧ form = .unary Operator.tightest) ∨
        ∃ op : Operator, t = op.token ∧ form = .binary op.precedence) ∧
    ∀ (e : Tree (Phrase reg)) (ts : List Token),
      (∀ t ∈ e.operators, (reg.operator? t).isSome = true) → e.Rendered Phrase.tokens 0 ts →
      convert reg ts = .ok (e.postorder Phrase.tokens) := by
  refine ⟨fun t form => hreg.operator?_cases, fun e ts hops h => ?_⟩
  exact convert_rendered h (Tree.known_of_operators hreg hops) fun a _ => a.inert

/-- A registry without disjunction: its name is a word of an operand like any other. The
parentheses are not needed, and the negation takes off neither the conjunction nor what follows. -/
theorem convert_of_standard_entries_without_or :
    let reg := Registry.ofOpcodes [.not, .connect .and, .read .sender]
    reg.IsStandard ∧
      convert reg ["!", "x", "or", "y", "and", "(", "!", "!", "msgSender", ")"]
        = .ok ["x", "or", "y", "!", "msgSender", "!", "!", "and"] := by
  intro reg
  have hreg : reg.IsStandard := by decide +kernel
  have hinert : ∀ t ∈ ["x", "or", "y"] ++ ["msgSender"], Inert reg t := by
    have hall : ∀ t ∈ ["x", "or", "y"] ++ ["msgSender"], t ≠ "(" ∧ t ≠ ")" ∧
        reg.operator? t = none ∧ isBoundary reg t none = false := by decide +kernel
    intro t ht
    obtain ⟨hopen, hclose, hop, hboundary⟩ := hall t ht
    exact ⟨hopen, hclose, hop, hboundary⟩
  let words : Phrase reg :=
    ⟨["x", "or", "y"], by decide, fun t ht => hinert t (List.mem_append_left _ ht)⟩
  let sender : Phrase reg :=
    ⟨["msgSender"], by decide, fun t ht => hinert t (List.mem_append_right _ ht)⟩
  let e : Tree (Phrase reg) :=
    .binary (.connect .and) (.negation (.atom words)) (.negation (.negation (.atom sender)))
  have hops : ∀ t ∈ e.operators, (reg.operator? t).isSome = true := by
    show ∀ t ∈ ["and", "!", "!", "!"], (reg.operator? t).isSome = true
    decide +kernel
  have hrendered : e.Rendered Phrase.tokens 0
      ["!", "x", "or", "y", "and", "(", "!", "!", "msgSender", ")"] :=
    .binary (by decide) (.negation _ (.atom _ words))
      (.paren _ (.negation _ (.negation _ (.atom _ sender))))
  exact ⟨hreg, (convert_of_standard_entries hreg).2 e _ hops hrendered⟩

end Postfix

end Proviso
