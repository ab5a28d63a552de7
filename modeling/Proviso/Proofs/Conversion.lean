import Mathlib.Data.List.Infix
import Proviso.Proofs.Registries

/-!
# What the conversion keeps

The conversion to postfix order takes any list of tokens, whether they make expressions or not:
operators without operands, statements inside parentheses, parentheses around nothing. It fails only
for its parentheses, and otherwise it only moves operators to the right.

Each token takes one turn (`Turn`): some of the operators that wait are written, and then the token
is written or waits in its turn, or opens or closes a parenthesis. What a turn does to the open
parentheses, to the tokens and to their order is said once; all outcomes of a whole conversion
follow (`Outcome`).

Main statements: the conversion fails exactly where parentheses do not match, and else it permutes
the other tokens (`convert_keeps_tokens`); a token that ends an expression keeps what stands before
it apart from what stands behind it (`convert_of_separated`).
-/

namespace Proviso

/-! ### Names that no registry of standard entries has -/

/-- No opcode is named like a bracket or like a word of another construct, and none like an
array. -/
theorem Opcode.mnemonic_not_reserved (op : Opcode) :
    op.mnemonic ∉ Token.reserved ∧ ¬ ['[', ']'] <:+ op.mnemonic.toList := by
  have h : ∀ op ∈ all, op.mnemonic ∉ Token.reserved ∧ ¬ ['[', ']'] <:+ op.mnemonic.toList := by
    decide +kernel
  exact h op op.mem_all

namespace Registry

variable {reg : Registry} {t : Token}

/-- A reserved token names no opcode. -/
theorem IsStandard.lookup?_reserved (h : reg.IsStandard) (ht : t ∈ Token.reserved) :
    reg.lookup? t = none := by
  cases hl : reg.lookup? t with
  | none => rfl
  | some e =>
    have halias : ∀ w ∈ Token.reserved, resolveAlias w = w := by decide
    obtain ⟨op, -, hname⟩ := h.lookup?_eq_some hl
    rw [halias t ht] at hname
    exact absurd (hname ▸ ht) op.mnemonic_not_reserved.1

/-- A token that declares an array is no operator. -/
theorem IsStandard.operator?_array (h : reg.IsStandard) (ht : ['[', ']'] <:+ t.toList) :
    reg.operator? t = none := by
  cases ho : reg.operator? t with
  | none => rfl
  | some form =>
    obtain ⟨op, rfl, -⟩ := h.operator?_eq_some ho
    exact absurd ht op.mnemonic_not_reserved.2

/-- A statement is no operator. -/
theorem operator?_of_isStatement (h : reg.isStatement t = true) : reg.operator? t = none := by
  cases hl : reg.lookup? t with
  | none => exact operator?_of_lookup? hl
  | some e =>
    rw [isStatement, hl] at h
    rw [operator?, hl, Option.bind_some, eq_of_beq h]
    rfl

end Registry

namespace Postfix

/-! ### Parentheses -/

/-- The token is a parenthesis. -/
def IsParen (t : Token) : Prop :=
  t = "(" ∨ t = ")"

instance : DecidablePred IsParen :=
  fun t => inferInstanceAs (Decidable (t = "(" ∨ t = ")"))

/-- Some first part of the tokens closes more parentheses than it opens and than were open before
it. -/
def Overcloses (opened : Nat) (ts : List Token) : Prop :=
  ∃ p, p <+: ts ∧ p.count "(" + opened < p.count ")"

/-- Every parenthesis is closed, and none is closed before it is opened. -/
structure Balanced (ts : List Token) : Prop where
  closes : ∀ p, p <+: ts → p.count ")" ≤ p.count "("
  settled : ts.count "(" = ts.count ")"

instance (ts : List Token) : Decidable (Balanced ts) :=
  decidable_of_iff ((∀ p ∈ ts.inits, p.count ")" ≤ p.count "(") ∧ ts.count "(" = ts.count ")")
    ⟨fun ⟨hc, hs⟩ => ⟨fun p hp => hc p ((List.mem_inits p ts).mpr hp), hs⟩,
      fun ⟨hc, hs⟩ => ⟨fun p hp => hc p ((List.mem_inits p ts).mp hp), hs⟩⟩

/-- Balanced tokens close no parenthesis that is not open. -/
theorem Balanced.not_overcloses {ts : List Token} (h : Balanced ts) : ¬ Overcloses 0 ts := by
  rintro ⟨p, hp, hlt⟩
  exact Nat.not_lt.mpr (h.closes p hp) hlt

theorem not_overcloses_nil (opened : Nat) : ¬ Overcloses opened [] := by
  rintro ⟨p, hp, hlt⟩
  rw [List.prefix_nil.mp hp] at hlt
  simp at hlt

theorem count_token_cons (u t : Token) (r : List Token) :
    (t :: r).count u = [t].count u + r.count u := by
  rw [← List.count_append, List.singleton_append]

/-- A first token that leaves `opened'` parentheses open. -/
theorem overcloses_cons {opened opened' : Nat} {t : Token} (r : List Token)
    (h : [t].count "(" + opened = [t].count ")" + opened') :
    Overcloses opened (t :: r) ↔ Overcloses opened' r := by
  constructor
  · rintro ⟨p, hp, hlt⟩
    rcases List.prefix_cons_iff.mp hp with rfl | ⟨q, rfl, hq⟩
    · simp at hlt
    · rw [count_token_cons "(" t q, count_token_cons ")" t q] at hlt
      exact ⟨q, hq, by omega⟩
  · rintro ⟨q, hq, hlt⟩
    refine ⟨t :: q, List.cons_prefix_cons.mpr ⟨rfl, hq⟩, ?_⟩
    rw [count_token_cons "(" t q, count_token_cons ")" t q]
    omega

theorem overcloses_close (r : List Token) : Overcloses 0 (")" :: r) :=
  ⟨[")"], ⟨r, rfl⟩, by decide⟩

/-! ### What waits -/

/-- The token of an operator that waits. -/
def Pending.token? : Pending → Option Token
  | .operator t _ => some t
  | .paren        => none

/-- The parentheses that are open. -/
def opened (pending : List Pending) : Nat :=
  pending.count .paren

/-- The operators that wait, last first. -/
def tokensOf (pending : List Pending) : List Token :=
  pending.filterMap Pending.token?

@[simp] theorem opened_paren (pending : List Pending) :
    opened (.paren :: pending) = opened pending + 1 :=
  List.count_cons_self

@[simp] theorem opened_operator (t : Token) (p : Nat) (pending : List Pending) :
    opened (.operator t p :: pending) = opened pending :=
  List.count_cons_of_ne (by simp)

/-- Operators that wait open no parenthesis. -/
@[simp] theorem opened_waiting (left : List (Token × Nat)) (pending : List Pending) :
    opened (left.map waiting ++ pending) = opened pending := by
  induction left with
  | nil => rfl
  | cons x left ih => rw [List.map_cons, List.cons_append, waiting, opened_operator, ih]

/-- Operators that wait are the tokens they were made from. -/
@[simp] theorem tokensOf_waiting (left : List (Token × Nat)) (pending : List Pending) :
    tokensOf (left.map waiting ++ pending) = left.map Prod.fst ++ tokensOf pending := by
  induction left with
  | nil => rfl
  | cons x left ih =>
    show x.1 :: tokensOf (left.map waiting ++ pending) = _
    rw [ih]
    rfl

theorem tokensOf_map_waiting (left : List (Token × Nat)) :
    tokensOf (left.map waiting) = left.map Prod.fst := by
  rw [← List.append_nil (left.map waiting), tokensOf_waiting]
  exact List.append_nil _

/-- Without an open parenthesis, all that waits are operators. -/
theorem exists_waiting_of_opened {pending : List Pending} (h : opened pending = 0) :
    ∃ left : List (Token × Nat), pending = left.map waiting := by
  induction pending with
  | nil => exact ⟨[], rfl⟩
  | cons x pending ih =>
    cases x with
    | paren => simp at h
    | operator t p =>
      rw [opened_operator] at h
      obtain ⟨left, rfl⟩ := ih h
      exact ⟨(t, p) :: left, rfl⟩

/-- The operators of a scope come off, down to a parenthesis or to the bottom. -/
theorem popScope_eq (pending : List Pending) :
    ∃ (left : List (Token × Nat)) (rest : List Pending), pending = left.map waiting ++ rest ∧
      popScope pending = (left.map Prod.fst, rest) ∧ (rest = [] ∨ ∃ r, rest = .paren :: r) := by
  induction pending with
  | nil => exact ⟨[], [], rfl, rfl, .inl rfl⟩
  | cons x pending ih =>
    cases x with
    | paren => exact ⟨[], .paren :: pending, rfl, rfl, .inr ⟨pending, rfl⟩⟩
    | operator t p =>
      obtain ⟨left, rest, rfl, hpop, hrest⟩ := ih
      refine ⟨(t, p) :: left, rest, rfl, ?_, hrest⟩
      rw [popScope, hpop]
      rfl

/-- What comes off for an operator are operators on top. -/
theorem popTighter_eq (p : Nat) (pending : List Pending) :
    ∃ (left : List (Token × Nat)) (rest : List Pending), pending = left.map waiting ++ rest ∧
      popTighter p pending = (left.map Prod.fst, rest) := by
  induction pending with
  | nil => exact ⟨[], [], rfl, rfl⟩
  | cons x pending ih =>
    cases x with
    | paren => exact ⟨[], .paren :: pending, rfl, rfl⟩
    | operator t q =>
      rw [popTighter]
      split
      · exact ⟨[], .operator t q :: pending, rfl, rfl⟩
      · obtain ⟨left, rest, rfl, hpop⟩ := ih
        refine ⟨(t, q) :: left, rest, rfl, ?_⟩
        rw [hpop]
        rfl

/-- A parenthesis that is still open at the end is an error. -/
theorem drain_of_opened {pending : List Pending} (h : opened pending ≠ 0) :
    drain pending = .error (.unbalancedParen "(") := by
  induction pending with
  | nil => exact absurd rfl h
  | cons x pending ih =>
    cases x with
    | paren => rfl
    | operator t p =>
      rw [opened_operator] at h
      rw [drain, ih h]
      rfl

/-! ### Turns -/

/-- Whether a token is no operator under the registry. -/
def isOperand (reg : Registry) (t : Token) : Bool :=
  (reg.operator? t).isNone

/-- What one token does while others wait: the tokens that are written, and what waits afterwards.
Only operators are taken off what waits, from the top. -/
inductive Turn (reg : Registry) : List Pending → Token → List Token → List Pending → Prop where
  | opens (pending : List Pending) : Turn reg pending "(" [] (.paren :: pending)
  | closes (left : List (Token × Nat)) (pending : List Pending) :
      Turn reg (left.map waiting ++ .paren :: pending) ")" (left.map Prod.fst) pending
  | waits {t : Token} (ht : ¬ IsParen t) (hop : isOperand reg t = false) (p : Nat)
      (left : List (Token × Nat)) (pending : List Pending) :
      Turn reg (left.map waiting ++ pending) t (left.map Prod.fst) (.operator t p :: pending)
  | passes {t : Token} (ht : ¬ IsParen t) (hop : isOperand reg t = true)
      (left : List (Token × Nat)) (pending : List Pending) :
      Turn reg (left.map waiting ++ pending) t (left.map Prod.fst ++ [t]) pending

variable {reg : Registry} {pending rest : List Pending} {t : Token} {out : List Token}

/-- Operators that come out are no operands. -/
theorem filter_operators {us : List Token} (h : ∀ u ∈ us, isOperand reg u = false) :
    us.filter (isOperand reg) = [] := by
  refine List.filter_eq_nil_iff.mpr fun u hu => ?_
  rw [h u hu]
  exact Bool.false_ne_true

/-- Of the token behind, only whether it is a brace matters. -/
theorem isBoundary_congr {next next' : Option Token}
    (h : next = some Token.lbrace ↔ next' = some Token.lbrace) :
    isBoundary reg t next = isBoundary reg t next' := by
  have hbeq : (next == some Token.lbrace) = (next' == some Token.lbrace) := by
    rw [Bool.eq_iff_iff, beq_iff_eq, beq_iff_eq, h]
  rw [isBoundary, isBoundary, hbeq]

/-- A token that is no operator comes out at once, behind what it ends; of the tokens behind it,
only a brace at once behind matters. -/
theorem exists_turn_of_operand (pending : List Pending) (ht : ¬ IsParen t)
    (hop : reg.operator? t = none) (next : Option Token) :
    ∃ out rest, Turn reg pending t out rest ∧
      ∀ r : List Token, (r.head? = some Token.lbrace ↔ next = some Token.lbrace) →
        convertFrom reg pending (t :: r) = (convertFrom reg rest r).map (out ++ ·) := by
  have hnone : isOperand reg t = true := by rw [isOperand, hop]; rfl
  cases hb : isBoundary reg t next with
  | true =>
    obtain ⟨left, rest, rfl, hpop, -⟩ := popScope_eq pending
    refine ⟨_, rest, .passes ht hnone left rest, fun r hr => ?_⟩
    rw [convertFrom, if_neg fun ho => ht (.inl ho), if_neg fun hc => ht (.inr hc), hop]
    dsimp only
    rw [isBoundary_congr hr, hb, if_pos rfl, hpop]
    cases convertFrom reg rest r <;> simp [Except.map]
  | false =>
    refine ⟨_, pending, .passes ht hnone [] pending, fun r hr => ?_⟩
    rw [convertFrom, if_neg fun ho => ht (.inl ho), if_neg fun hc => ht (.inr hc), hop]
    dsimp only
    rw [isBoundary_congr hr, hb, if_neg Bool.false_ne_true]
    rfl

/-- An operator waits, and those that bind at least as tightly come out. -/
theorem exists_turn_of_operator (pending : List Pending) (ht : ¬ IsParen t) {form : Form}
    (hop : reg.operator? t = some form) :
    ∃ out rest, Turn reg pending t out rest ∧
      ∀ r, convertFrom reg pending (t :: r) = (convertFrom reg rest r).map (out ++ ·) := by
  have hsome : isOperand reg t = false := by rw [isOperand, hop]; rfl
  cases form with
  | unary p =>
    refine ⟨[], _, .waits ht hsome p [] pending, fun r => ?_⟩
    rw [convertFrom, if_neg fun ho => ht (.inl ho), if_neg fun hc => ht (.inr hc), hop]
    dsimp only
    cases convertFrom reg (.operator t p :: pending) r <;> rfl
  | binary p =>
    obtain ⟨left, rest, rfl, hpop⟩ := popTighter_eq p pending
    refine ⟨_, _, .waits ht hsome p left rest, fun r => ?_⟩
    rw [convertFrom, if_neg fun ho => ht (.inl ho), if_neg fun hc => ht (.inr hc), hop]
    dsimp only
    rw [hpop]
  | value | statement =>
    obtain ⟨-, -, -, hp⟩ := Registry.operator?_eq_some_iff.mp hop
    cases hp

/-- A token takes its turn, or it closes a parenthesis that is not open. The tokens behind it are
converted behind what waits after the turn. -/
theorem turn_or_overcloses (reg : Registry) (pending : List Pending) (t : Token)
    (next : Option Token) :
    (t = ")" ∧ opened pending = 0 ∧
      ∀ r, convertFrom reg pending (t :: r) = .error (.unbalancedParen ")")) ∨
    ∃ out rest, Turn reg pending t out rest ∧
      ∀ r : List Token, (r.head? = some Token.lbrace ↔ next = some Token.lbrace) →
        convertFrom reg pending (t :: r) = (convertFrom reg rest r).map (out ++ ·) := by
  by_cases ho : t = "("
  · subst ho
    refine .inr ⟨[], .paren :: pending, .opens pending, fun r _ => ?_⟩
    rw [convertFrom_open]
    cases convertFrom reg (.paren :: pending) r <;> rfl
  by_cases hc : t = ")"
  · subst hc
    obtain ⟨left, rest, rfl, hpop, rfl | ⟨below, rfl⟩⟩ := popScope_eq pending
    · refine .inl ⟨rfl, opened_waiting left [], fun r => ?_⟩
      rw [convertFrom, if_neg ho, if_pos rfl, hpop]
    · exact .inr ⟨_, below, .closes left below, fun r _ => convertFrom_close left r⟩
  have ht : ¬ IsParen t := fun h => h.elim ho hc
  right
  cases hop : reg.operator? t with
  | none => exact exists_turn_of_operand pending ht hop next
  | some form =>
    obtain ⟨out, rest, hturn, hr⟩ := exists_turn_of_operator pending ht hop
    exact ⟨out, rest, hturn, fun r _ => hr r⟩

namespace Turn

/-- A turn opens and closes the parentheses that its token says. -/
theorem opened_eq (h : Turn reg pending t out rest) :
    [t].count "(" + opened pending = [t].count ")" + opened rest := by
  have hplain : ∀ {u : Token}, ¬ IsParen u → [u].count "(" = 0 ∧ [u].count ")" = 0 := by
    intro u hu
    constructor <;> refine List.count_eq_zero.mpr fun hm => hu ?_
    · exact .inl (List.mem_singleton.mp hm).symm
    · exact .inr (List.mem_singleton.mp hm).symm
  cases h with
  | opens => simp; omega
  | closes left => simp; omega
  | waits ht => simp [hplain ht]
  | passes ht => simp [hplain ht]

/-- What is written or waits after a turn was waiting before, or is the token itself. -/
theorem perm (h : Turn reg pending t out rest) :
    (out ++ tokensOf rest).Perm (tokensOf pending ++ [t].filter (¬ IsParen ·)) := by
  cases h with
  | opens => exact .of_eq (List.append_nil _).symm
  | closes left =>
    rw [tokensOf_waiting]
    exact .of_eq (List.append_nil _).symm
  | waits ht _ p left =>
    rw [tokensOf_waiting, List.append_assoc, List.filter_cons_of_pos (by simpa using ht)]
    exact List.Perm.append_left _ (List.perm_append_singleton t _).symm
  | passes ht _ left =>
    rw [tokensOf_waiting, List.append_assoc, List.append_assoc,
      List.filter_cons_of_pos (by simpa using ht)]
    exact List.Perm.append_left _ (List.perm_append_singleton t _).symm

/-- Nothing but operators waits after a turn, if that was so before. -/
theorem operators (h : Turn reg pending t out rest)
    (hw : ∀ u ∈ tokensOf pending, isOperand reg u = false) :
    ∀ u ∈ tokensOf rest, isOperand reg u = false := by
  cases h with
  | opens => exact hw
  | closes left =>
    rw [tokensOf_waiting] at hw
    exact (List.forall_mem_append.mp hw).2
  | waits _ hop _ left =>
    rw [tokensOf_waiting] at hw
    exact List.forall_mem_cons.mpr ⟨hop, (List.forall_mem_append.mp hw).2⟩
  | passes _ _ left =>
    rw [tokensOf_waiting] at hw
    exact (List.forall_mem_append.mp hw).2

/-- The one token that a turn can write besides operators is its own. -/
theorem filter_out (h : Turn reg pending t out rest)
    (hw : ∀ u ∈ tokensOf pending, isOperand reg u = false) :
    out.filter (isOperand reg) = ([t].filter (¬ IsParen ·)).filter (isOperand reg) := by
  have hleft : ∀ {left : List (Token × Nat)} {p : List Pending},
      (∀ u ∈ tokensOf (left.map waiting ++ p), isOperand reg u = false) →
      (left.map Prod.fst).filter (isOperand reg) = [] := by
    intro left p h
    rw [tokensOf_waiting] at h
    exact filter_operators (List.forall_mem_append.mp h).1
  cases h with
  | opens => rfl
  | closes left => rw [hleft hw]; rfl
  | waits ht hop => rw [hleft hw]; simp [ht, hop]
  | passes ht hop => rw [List.filter_append, hleft hw]; simp [ht, hop]

end Turn

/-! ### Outcomes -/

/-- What can come of tokens behind those that wait. -/
inductive Outcome (reg : Registry) (pending : List Pending) (ts : List Token) :
    Except CompileError (List Token) → Prop where
  | overclosed (h : Overcloses (opened pending) ts) :
      Outcome reg pending ts (.error (.unbalancedParen ")"))
  | unclosed (h : ¬ Overcloses (opened pending) ts)
      (hc : ts.count "(" + opened pending ≠ ts.count ")") :
      Outcome reg pending ts (.error (.unbalancedParen "("))
  | done {out : List Token} (h : ¬ Overcloses (opened pending) ts)
      (hc : ts.count "(" + opened pending = ts.count ")")
      (hperm : out.Perm (tokensOf pending ++ ts.filter (¬ IsParen ·)))
      (horder : out.filter (isOperand reg) = (ts.filter (¬ IsParen ·)).filter (isOperand reg)) :
      Outcome reg pending ts (.ok out)

/-- What comes of the tokens behind a turn, with what the turn writes in front. -/
theorem Outcome.turn {r : List Token} {x : Except CompileError (List Token)}
    (ht : Turn reg pending t out rest)
    (hw : ∀ u ∈ tokensOf pending, isOperand reg u = false) (h : Outcome reg rest r x) :
    Outcome reg pending (t :: r) (x.map (out ++ ·)) := by
  have hover := overcloses_cons r ht.opened_eq
  have hopen := count_token_cons "(" t r
  have hclose := count_token_cons ")" t r
  have hopened := ht.opened_eq
  cases h with
  | overclosed h => exact .overclosed (hover.mpr h)
  | unclosed h hc => exact .unclosed (fun ho => h (hover.mp ho)) (by omega)
  | @done more h hc hperm horder =>
    have hfilter : (t :: r).filter (¬ IsParen ·)
        = [t].filter (¬ IsParen ·) ++ r.filter (¬ IsParen ·) :=
      List.filter_append [t] r
    refine .done (fun ho => h (hover.mp ho)) (by omega) ?_ ?_
    · rw [hfilter, ← List.append_assoc]
      refine (hperm.append_left out).trans ?_
      rw [← List.append_assoc]
      exact ht.perm.append_right _
    · rw [List.filter_append, ht.filter_out hw, horder, hfilter, List.filter_append]

/-- Every conversion has one of the outcomes. -/
theorem outcome_convertFrom (ts : List Token)
    (hw : ∀ u ∈ tokensOf pending, isOperand reg u = false) :
    Outcome reg pending ts (convertFrom reg pending ts) := by
  induction ts generalizing pending with
  | nil =>
    by_cases ho : opened pending = 0
    · obtain ⟨left, rfl⟩ := exists_waiting_of_opened ho
      rw [tokensOf_map_waiting] at hw
      rw [convertFrom, drain_waiting]
      refine .done (not_overcloses_nil _) (by simp [ho]) ?_ (filter_operators hw)
      rw [tokensOf_map_waiting]
      exact .of_eq (List.append_nil _).symm
    · rw [convertFrom, drain_of_opened ho]
      exact .unclosed (not_overcloses_nil _) (by simpa using ho)
  | cons t r ih =>
    rcases turn_or_overcloses reg pending t r.head? with ⟨rfl, ho, he⟩ | ⟨out, rest, ht, he⟩
    · rw [he]
      refine .overclosed ?_
      rw [ho]
      exact overcloses_close r
    · rw [he r Iff.rfl]
      exact (ih (ht.operators hw)).turn ht hw

/-- **The conversion neither loses nor invents tokens.** It succeeds if and only if the parentheses
are balanced. It fails at a closing parenthesis if some first part of the tokens closes more than it
opens, and at an opening one if the parentheses are unbalanced in any other way. What comes out is a
permutation of the tokens that are no parentheses, and those that are no operators keep their
order. -/
theorem convert_keeps_tokens (reg : Registry) (ts : List Token) :
    ((∃ out, convert reg ts = .ok out) ↔ Balanced ts) ∧
    (convert reg ts = .error (.unbalancedParen ")") ↔
      ∃ p, p <+: ts ∧ p.count "(" < p.count ")") ∧
    (convert reg ts = .error (.unbalancedParen "(") ↔
      ¬ Balanced ts ∧ ¬ ∃ p, p <+: ts ∧ p.count "(" < p.count ")") ∧
    ∀ out, convert reg ts = .ok out →
      out.Perm (ts.filter (¬ IsParen ·)) ∧
      out.filter (isOperand reg) = (ts.filter (¬ IsParen ·)).filter (isOperand reg) := by
  have houtcome : Outcome reg [] ts (convert reg ts) := outcome_convertFrom ts (by simp [tokensOf])
  show _ ∧ (_ ↔ Overcloses 0 ts) ∧ (_ ↔ _ ∧ ¬ Overcloses 0 ts) ∧ _
  cases hx : convert reg ts with
  | error e =>
    rw [hx] at houtcome
    cases houtcome with
    | overclosed h =>
      have hb : ¬ Balanced ts := fun hb => hb.not_overcloses h
      have ho : Overcloses 0 ts := h
      simp [hb, ho]
    | unclosed h hc =>
      have hb : ¬ Balanced ts := fun hb => hc hb.settled
      have ho : ¬ Overcloses 0 ts := h
      simp [hb, ho]
  | ok out =>
    rw [hx] at houtcome
    cases houtcome with
    | done h hc hperm horder =>
      have ho : ¬ Overcloses 0 ts := h
      have hb : Balanced ts := ⟨fun p hp => Nat.not_lt.mp fun hlt => ho ⟨p, hp, hlt⟩, hc⟩
      refine ⟨by simp [hb], by simp [ho], by simp [hb], ?_⟩
      rintro _ ⟨⟩
      exact ⟨hperm, horder⟩

-- operators without operands, and a statement inside parentheses
example : convert .standard ["+", "(", "if", "*", ")", "!"] = .ok ["if", "*", "!", "+"] := by rfl

/-! ### Tokens that end an expression -/

/-- The conversion of tokens that close no more parentheses than are open. What they write and what
they leave waiting does not depend on what follows, unless that starts with a brace. -/
theorem convertFrom_append (reg : Registry) {pending : List Pending} {xs : List Token}
    (h : ¬ Overcloses (opened pending) xs) :
    ∃ out rest, xs.count "(" + opened pending = xs.count ")" + opened rest ∧
      ∀ ys : List Token, ys.head? ≠ some Token.lbrace →
        convertFrom reg pending (xs ++ ys) = (convertFrom reg rest ys).map (out ++ ·) := by
  induction xs generalizing pending with
  | nil =>
    refine ⟨[], pending, by simp, fun ys _ => ?_⟩
    cases hc : convertFrom reg pending ys <;> simp [Except.map, hc]
  | cons x xs ih =>
    rcases turn_or_overcloses reg pending x xs.head? with ⟨rfl, ho, -⟩ | ⟨out, mid, ht, he⟩
    · rw [ho] at h
      exact absurd (overcloses_close xs) h
    · have hturn := ht.opened_eq
      obtain ⟨more, rest, hcount, hmore⟩ := ih fun ho => h ((overcloses_cons xs hturn).mpr ho)
      refine ⟨out ++ more, rest, ?_, fun ys hys => ?_⟩
      · rw [count_token_cons "(" x xs, count_token_cons ")" x xs]
        omega
      · -- the token behind `x` is the same one, or it is the first of `ys`, which is no brace
        have hnext : (xs ++ ys).head? = some Token.lbrace ↔ xs.head? = some Token.lbrace := by
          cases xs with
          | nil => simpa using hys
          | cons y xs => rfl
        rw [List.cons_append, he _ hnext, hmore ys hys, map_append_map]

/-- Balanced tokens leave nothing but operators waiting. -/
theorem Balanced.convert_append {xs : List Token} (h : Balanced xs) (reg : Registry) :
    ∃ (out : List Token) (left : List (Token × Nat)),
      convert reg xs = .ok (out ++ left.map Prod.fst) ∧
      ∀ ys : List Token, ys.head? ≠ some Token.lbrace →
        convert reg (xs ++ ys) = (convertFrom reg (left.map waiting) ys).map (out ++ ·) := by
  have hnone : opened [] = 0 := rfl
  have hsettled := h.settled
  obtain ⟨out, rest, hcount, hout⟩ := convertFrom_append reg (hnone ▸ h.not_overcloses)
  obtain ⟨left, rfl⟩ := exists_waiting_of_opened (by omega : opened rest = 0)
  refine ⟨out, left, ?_, hout⟩
  have hx := hout [] (by simp)
  rw [List.append_nil, convertFrom, drain_waiting] at hx
  exact hx

/-- Outside of parentheses all operators come off. -/
theorem popScope_map_waiting (left : List (Token × Nat)) :
    popScope (left.map waiting) = (left.map Prod.fst, []) := by
  induction left with
  | nil => rfl
  | cons x left ih =>
    rw [List.map_cons, waiting, popScope, ih]
    rfl

/-- A token that is written behind every operator that waits for it. -/
structure Ends (reg : Registry) (t : Token) (next : Option Token) : Prop where
  not_paren : ¬ IsParen t
  operator?_eq : reg.operator? t = none
  boundary : isBoundary reg t next = true

/-- A token that ends the expression brings out what waits, and conversion starts anew behind it. -/
theorem Ends.convertFrom {r : List Token} (h : Ends reg t r.head?) (left : List (Token × Nat)) :
    convertFrom reg (left.map waiting) (t :: r)
      = (convert reg r).map (left.map Prod.fst ++ t :: ·) := by
  rw [Postfix.convertFrom, if_neg fun ho => h.not_paren (.inl ho),
    if_neg fun hc => h.not_paren (.inr hc), h.operator?_eq]
  dsimp only
  rw [h.boundary, if_pos rfl, popScope_map_waiting]
  rfl

/-- The tokens that end the expression before them wherever they stand, the open brace apart:
statements, declarations of arrays, and words of other constructs. -/
inductive EndsExpression (reg : Registry) (s : Token) : Prop where
  | statement (h : reg.isStatement s = true)
  | array (h : ['[', ']'] <:+ s.toList)
  | word (h : s ∈ [Token.rbrace, "branch", "insert", "endf"])

/-- A token of one of these forms is a boundary, whatever follows it. -/
theorem EndsExpression.boundary {s : Token} (h : EndsExpression reg s) (next : Option Token) :
    isBoundary reg s next = true := by
  cases h with
  | statement h => simp [isBoundary, h]
  | array h => simp [isBoundary, Token.dropEnding?, h]
  | word h =>
    have hw : s ∈ boundaryWords := List.mem_cons_of_mem _ h
    simp [isBoundary, hw]

/-- Under a registry of standard entries no such token is a bracket or an operator. -/
theorem EndsExpression.ends {s : Token} (hreg : reg.IsStandard) (h : EndsExpression reg s) :
    s ≠ Token.lbrace ∧ ∀ next, Ends reg s next := by
  have hends : ∀ {u : Token}, EndsExpression reg u → u ∉ ["(", ")", Token.lbrace] →
      reg.operator? u = none → u ≠ Token.lbrace ∧ ∀ next, Ends reg u next := by
    intro u hu hbracket hop
    refine ⟨fun he => hbracket (by simp [he]), fun next => ⟨?_, hop, hu.boundary next⟩⟩
    rintro (rfl | rfl) <;> exact hbracket (by decide)
  have hbrackets : ∀ w ∈ ["(", ")", Token.lbrace], w ∈ Token.reserved ∧ ¬ ['[', ']'] <:+ w.toList ∧
      w ∉ [Token.rbrace, "branch", "insert", "endf"] := by decide
  cases h with
  | statement hs =>
    refine hends (.statement hs) (fun hb => ?_) (Registry.operator?_of_isStatement hs)
    rw [Registry.isStatement_of_lookup? (hreg.lookup?_reserved (hbrackets s hb).1)] at hs
    cases hs
  | array ha =>
    exact hends (.array ha) (fun hb => (hbrackets s hb).2.1 ha) (hreg.operator?_array ha)
  | word hw =>
    have hreserved : ∀ w ∈ [Token.rbrace, "branch", "insert", "endf"], w ∈ Token.reserved := by
      decide
    exact hends (.word hw) (fun hb => (hbrackets s hb).2.2 hw)
      (Registry.operator?_of_lookup? (hreg.lookup?_reserved (hreserved s hw)))

/-- **Statements isolate expressions.** Take balanced tokens on both sides of a token that ends an
expression, or of a label and its open brace. Both sides are converted as if they stood alone, and
what is between them stays where it is. -/
theorem convert_of_separated {reg : Registry} (hreg : reg.IsStandard) {xs ys : List Token}
    (hx : Balanced xs) (hy : Balanced ys) :
    ∃ us vs, convert reg xs = .ok us ∧ convert reg ys = .ok vs ∧
      (∀ s, EndsExpression reg s → convert reg (xs ++ [s] ++ ys) = .ok (us ++ [s] ++ vs)) ∧
      ∀ l, reg.operator? l = none → ¬ IsParen l → l ≠ Token.lbrace →
        convert reg (xs ++ [l, Token.lbrace] ++ ys) = .ok (us ++ [l, Token.lbrace] ++ vs) := by
  obtain ⟨out, left, hus, hbehind⟩ := hx.convert_append reg
  obtain ⟨out', left', hvs, -⟩ := hy.convert_append reg
  refine ⟨_, _, hus, hvs, fun s hs => ?_, fun l hop hparen hl => ?_⟩
  · obtain ⟨hbrace, hends⟩ := hs.ends hreg
    rw [List.append_assoc, List.singleton_append, hbehind _ (by simpa using hbrace),
      (hends _).convertFrom, hvs]
    simp [Except.map]
  · have hlabel : Ends reg l (some Token.lbrace) := ⟨hparen, hop, by simp [isBoundary]⟩
    have hopen : Ends reg Token.lbrace ys.head? := by
      have hlookup := hreg.lookup?_reserved (t := Token.lbrace) (by decide)
      exact ⟨by decide, Registry.operator?_of_lookup? hlookup, by simp [isBoundary, boundaryWords]⟩
    have hys : convert reg (Token.lbrace :: ys) = (convert reg ys).map (Token.lbrace :: ·) :=
      hopen.convertFrom []
    rw [List.append_assoc, List.cons_append, List.singleton_append,
      hbehind _ (by simpa using hl), Ends.convertFrom (r := Token.lbrace :: ys) hlabel, hys, hvs]
    simp [Except.map]

/-- Between two sums stands a statement, or a label and its brace. The label is the name of an
operator that this registry does not have. -/
theorem convert_of_separated_by_set_and_label :
    let reg := Registry.ofOpcodes [.compute .add, .compute .mul, .set .integer]
    let xs := ["(", "a", "+", "b", ")", "*", "c"]
    let ys := ["X", "+", "(", "Y", ")"]
    (reg.IsStandard ∧ Balanced xs ∧ Balanced ys ∧ EndsExpression reg "setUint256" ∧
      reg.operator? "or" = none) ∧
    convert reg (xs ++ ["setUint256"] ++ ys)
      = .ok ["a", "b", "+", "c", "*", "setUint256", "X", "Y", "+"] ∧
    convert reg (xs ++ ["or", Token.lbrace] ++ ys)
      = .ok ["a", "b", "+", "c", "*", "or", Token.lbrace, "X", "Y", "+"] := by
  intro reg xs ys
  have hreg : reg.IsStandard := by decide +kernel
  have hx : Balanced xs := by decide +kernel
  have hy : Balanced ys := by decide +kernel
  have hs : EndsExpression reg "setUint256" := .statement (by decide +kernel)
  have hl : reg.operator? "or" = none := by decide +kernel
  have hus : convert reg xs = .ok ["a", "b", "+", "c", "*"] := by rfl
  have hvs : convert reg ys = .ok ["X", "Y", "+"] := by rfl
  obtain ⟨us, vs, hxs, hys, hstatement, hlabel⟩ := convert_of_separated hreg hx hy
  cases hus.symm.trans hxs
  cases hvs.symm.trans hys
  exact ⟨⟨hreg, hx, hy, hs, hl⟩, hstatement _ hs, hlabel _ hl (by decide) (by decide)⟩

end Postfix

end Proviso
