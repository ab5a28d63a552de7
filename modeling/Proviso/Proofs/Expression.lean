import Proviso.Source.Postfix

/-!
# Expressions and their postfix order

Trees of operators over atoms, and the lists of tokens that write them down. Operators of higher
precedence bind tighter and operators of one precedence group to the left; parentheses have to stand
where the tree says otherwise, and may stand anywhere.

Main statement: the conversion puts every such list into the postorder of its tree
(`Postfix.convert_rendered`).
-/

namespace Proviso

/-- The operators that stand between their operands. -/
inductive Operator where
  | compare (c : Comparison)
  | connect (c : Connective)
  | compute (a : Arithmetic)

namespace Operator

/-- The opcode of an operator. -/
def opcode : Operator → Opcode
  | .compare c => .compare c
  | .connect c => .connect c
  | .compute a => .compute a

/-- The token of an operator: its name. -/
def token (op : Operator) : Token :=
  op.opcode.mnemonic

/-- How tightly an operator binds. -/
def precedence : Operator → Nat
  | .connect .or | .connect .xor                                  => 1
  | .connect .and                                                 => 2
  | .compare .eq | .compare .ne                                   => 3
  | .compare .lt | .compare .gt | .compare .le | .compare .ge     => 4
  | .compute .add | .compute .sub                                 => 5
  | .compute .mul | .compute .div                                 => 6

/-- The token of the one operator that stands before its operand. -/
def negation : Token :=
  Opcode.not.mnemonic

/-- The precedence of negation, above all others. -/
def tightest : Nat := 7

/-- Negation binds tighter than any other operator. -/
theorem precedence_lt_tightest (op : Operator) : op.precedence < tightest := by
  rcases op with c | c | c <;> cases c <;> decide

/-- The tokens of operators are no brackets. -/
theorem token_ne (op : Operator) :
    op.token ≠ "(" ∧ op.token ≠ ")" ∧ op.token ≠ Token.lbrace := by
  rcases op with c | c | c <;> cases c <;> decide

end Operator

/-- An expression over atoms. -/
inductive Tree (α : Type) where
  | atom (a : α)
  | negation (e : Tree α)
  | binary (op : Operator) (lhs rhs : Tree α)

namespace Tree

variable {α : Type}

/-- The atoms of an expression, from left to right. -/
def atoms : Tree α → List α
  | .atom a           => [a]
  | .negation e       => e.atoms
  | .binary _ lhs rhs => lhs.atoms ++ rhs.atoms

/-- The tokens of the tree, each operator behind its operands. -/
def postorder (spell : α → List Token) : Tree α → List Token
  | .atom a            => spell a
  | .negation e        => e.postorder spell ++ [Operator.negation]
  | .binary op lhs rhs => lhs.postorder spell ++ rhs.postorder spell ++ [op.token]

/-- The registry has the operators of the tree, with their precedences. -/
def Known (reg : Registry) : Tree α → Prop
  | .atom _            => True
  | .negation e        =>
      reg.operator? Operator.negation = some (.unary Operator.tightest) ∧ e.Known reg
  | .binary op lhs rhs =>
      reg.operator? op.token = some (.binary op.precedence) ∧ lhs.Known reg ∧ rhs.Known reg

/-- The tokens write the tree down where only operators of precedence `level` or above may stand
without parentheses. -/
inductive Rendered (spell : α → List Token) : Nat → Tree α → List Token → Prop where
  | atom (level : Nat) (a : α) : Rendered spell level (.atom a) (spell a)
  | paren (level : Nat) {e : Tree α} {ts : List Token} (h : Rendered spell 0 e ts) :
      Rendered spell level e ("(" :: (ts ++ [")"]))
  | negation (level : Nat) {e : Tree α} {ts : List Token}
      (h : Rendered spell Operator.tightest e ts) :
      Rendered spell level (.negation e) (Operator.negation :: ts)
  | binary {level : Nat} {op : Operator} {lhs rhs : Tree α} {ts us : List Token}
      (hlevel : level ≤ op.precedence) (hl : Rendered spell op.precedence lhs ts)
      (hr : Rendered spell (op.precedence + 1) rhs us) :
      Rendered spell level (.binary op lhs rhs) (ts ++ op.token :: us)

end Tree

namespace Postfix

/-! ### What waits -/

/-- An operator that waits, with its precedence. -/
def waiting (x : Token × Nat) : Pending :=
  .operator x.1 x.2

/-- Operators on top that bind at least as tightly come off together. -/
theorem popTighter_waiting {p : Nat} {left : List (Token × Nat)} {pending : List Pending}
    (hl : ∀ x ∈ left, p ≤ x.2) (hp : popTighter p pending = ([], pending)) :
    popTighter p (left.map waiting ++ pending) = (left.map Prod.fst, pending) := by
  induction left with
  | nil => exact hp
  | cons x left ih =>
    obtain ⟨hx, hl⟩ := List.forall_mem_cons.mp hl
    rw [List.map_cons, List.cons_append, waiting, popTighter, if_neg (Nat.not_lt.mpr hx), ih hl]
    rfl

/-- All operators down to the parenthesis come off. -/
theorem popScope_waiting (left : List (Token × Nat)) (pending : List Pending) :
    popScope (left.map waiting ++ .paren :: pending) = (left.map Prod.fst, .paren :: pending) := by
  induction left with
  | nil => rfl
  | cons x left ih =>
    rw [List.map_cons, List.cons_append, waiting, popScope, ih]
    rfl

/-- At the end all operators that wait come out. -/
theorem drain_waiting (left : List (Token × Nat)) :
    drain (left.map waiting) = .ok (left.map Prod.fst) := by
  induction left with
  | nil => rfl
  | cons x left ih =>
    rw [List.map_cons, waiting, drain, ih]
    rfl

/-- A list put in front of the result, and then another one in front of that. -/
theorem map_append_map {ε α : Type} (x : Except ε (List α)) (as bs : List α) :
    (x.map (bs ++ ·)).map (as ++ ·) = x.map (as ++ bs ++ ·) := by
  cases x <;> simp [Except.map]

/-! ### Steps -/

section Steps

variable {reg : Registry} {pending : List Pending}

theorem convertFrom_open (r : List Token) :
    convertFrom reg pending ("(" :: r) = convertFrom reg (.paren :: pending) r := by
  rw [convertFrom, if_pos rfl]

/-- A closing parenthesis takes off all that waits behind the opening one. -/
theorem convertFrom_close (left : List (Token × Nat)) (r : List Token) :
    convertFrom reg (left.map waiting ++ .paren :: pending) (")" :: r)
      = (convertFrom reg pending r).map (left.map Prod.fst ++ ·) := by
  rw [convertFrom, if_neg (by decide), if_pos rfl, popScope_waiting]

/-- A negation waits for its operand. -/
theorem convertFrom_negation
    (h : reg.operator? Operator.negation = some (.unary Operator.tightest)) (r : List Token) :
    convertFrom reg pending (Operator.negation :: r)
      = convertFrom reg (.operator Operator.negation Operator.tightest :: pending) r := by
  rw [convertFrom, if_neg (by decide), if_neg (by decide), h]

/-- An operator takes off what binds at least as tightly, and waits. -/
theorem convertFrom_operator {op : Operator}
    (h : reg.operator? op.token = some (.binary op.precedence)) {left : List (Token × Nat)}
    (hl : ∀ x ∈ left, op.precedence ≤ x.2)
    (hp : popTighter op.precedence pending = ([], pending)) (r : List Token) :
    convertFrom reg (left.map waiting ++ pending) (op.token :: r)
      = (convertFrom reg (.operator op.token op.precedence :: pending) r).map
          (left.map Prod.fst ++ ·) := by
  rw [convertFrom, if_neg op.token_ne.1, if_neg op.token_ne.2.1, h]
  dsimp only
  rw [popTighter_waiting hl hp]

end Steps

/-! ### Atoms -/

/-- A token that the conversion passes on: no parenthesis, no operator, and no end of an
expression. -/
structure Inert (reg : Registry) (t : Token) : Prop where
  ne_open : t ≠ "("
  ne_close : t ≠ ")"
  operator?_eq : reg.operator? t = none
  not_boundary : isBoundary reg t none = false

variable {reg : Registry}

theorem Inert.ne_brace {t : Token} (h : Inert reg t) : t ≠ Token.lbrace := by
  rintro rfl
  have hb : boundaryWords.contains Token.lbrace = true := by decide
  have hn := h.not_boundary
  rw [isBoundary, hb] at hn
  cases hn

/-- Of the next token only a brace matters. -/
theorem isBoundary_of_ne {t : Token} {next : Option Token} (h : next ≠ some Token.lbrace) :
    isBoundary reg t next = isBoundary reg t none := by
  have hn : (next == some Token.lbrace) = false := by simpa using h
  rw [isBoundary, isBoundary, hn]
  rfl

/-- Operands come out as they stand, and what waits goes on waiting. -/
theorem convertFrom_inert {ts rest : List Token} (h : ∀ t ∈ ts, Inert reg t)
    (hrest : rest.head? ≠ some Token.lbrace) (pending : List Pending) :
    convertFrom reg pending (ts ++ rest) = (convertFrom reg pending rest).map (ts ++ ·) := by
  induction ts with
  | nil => cases hc : convertFrom reg pending rest <;> simp [Except.map, hc]
  | cons t ts ih =>
    obtain ⟨ht, hts⟩ := List.forall_mem_cons.mp h
    have hnext : (ts ++ rest).head? ≠ some Token.lbrace := by
      cases ts with
      | nil => exact hrest
      | cons u ts => exact fun he => (hts u (.head _)).ne_brace (Option.some.inj he)
    rw [List.cons_append, convertFrom, if_neg ht.ne_open, if_neg ht.ne_close, ht.operator?_eq]
    dsimp only
    rw [isBoundary_of_ne hnext, ht.not_boundary, if_neg Bool.false_ne_true, ih hts]
    cases convertFrom reg pending rest <;> rfl

/-! ### Trees -/

open Proviso.Tree in
/-- The conversion of a rendered tree, whatever waits before it and whatever comes behind. It writes
a part of the postorder and leaves the rest of it waiting: operators of the level or above. -/
theorem convertFrom_rendered {α : Type} {spell : α → List Token} {level : Nat} {e : Tree α}
    {ts : List Token} (h : Rendered spell level e ts) (hk : e.Known reg)
    (ha : ∀ a ∈ e.atoms, ∀ t ∈ spell a, Inert reg t) (hlevel : level ≤ Operator.tightest)
    (pending : List Pending)
    (hp : ∀ op : Operator, level ≤ op.precedence →
      popTighter op.precedence pending = ([], pending))
    (rest : List Token) (hrest : rest.head? ≠ some Token.lbrace) :
    ∃ (out : List Token) (left : List (Token × Nat)),
      out ++ left.map Prod.fst = e.postorder spell ∧ (∀ x ∈ left, level ≤ x.2) ∧
      convertFrom reg pending (ts ++ rest)
        = (convertFrom reg (left.map waiting ++ pending) rest).map (out ++ ·) := by
  induction h generalizing pending rest with
  | atom level a =>
    exact ⟨spell a, [], List.append_nil _, by simp,
      convertFrom_inert (ha a (.head _)) hrest pending⟩
  | @paren level e ts h ih =>
    obtain ⟨out, left, hout, -, hc⟩ :=
      ih hk ha (Nat.zero_le _) (.paren :: pending) (fun _ _ => rfl) (")" :: rest)
        (by simp [Token.lbrace])
    refine ⟨e.postorder spell, [], List.append_nil _, by simp, ?_⟩
    have hts : "(" :: (ts ++ [")"]) ++ rest = "(" :: (ts ++ ")" :: rest) := by simp
    rw [hts, convertFrom_open, hc, convertFrom_close, map_append_map, hout]
    rfl
  | @negation level e ts h ih =>
    obtain ⟨hneg, hk⟩ := hk
    -- no binary operator stands at this level, so nothing in the operand takes the negation off
    obtain ⟨out, left, hout, hleft, hc⟩ :=
      ih hk ha (Nat.le_refl _) (.operator Operator.negation Operator.tightest :: pending)
        (fun op hle => absurd op.precedence_lt_tightest (Nat.not_lt.mpr hle)) rest hrest
    refine ⟨out, left ++ [(Operator.negation, Operator.tightest)], ?_, ?_, ?_⟩
    · rw [List.map_append, ← List.append_assoc, hout]
      rfl
    · intro x hx
      rcases List.mem_append.mp hx with hx | hx
      · exact Nat.le_trans hlevel (hleft x hx)
      · rw [List.mem_singleton.mp hx]
        exact hlevel
    · rw [List.cons_append, convertFrom_negation hneg, hc, List.map_append, List.append_assoc]
      rfl
  | @binary level op lhs rhs ts us hle hl hr ihl ihr =>
    obtain ⟨hop, hkl, hkr⟩ := hk
    have hlt := op.precedence_lt_tightest
    have hal : ∀ a ∈ lhs.atoms, ∀ t ∈ spell a, Inert reg t :=
      fun a hm => ha a (List.mem_append_left _ hm)
    have har : ∀ a ∈ rhs.atoms, ∀ t ∈ spell a, Inert reg t :=
      fun a hm => ha a (List.mem_append_right _ hm)
    obtain ⟨outl, leftl, houtl, hleftl, hcl⟩ :=
      ihl hkl hal (Nat.le_of_lt hlt) pending (fun op' h => hp op' (Nat.le_trans hle h))
        (op.token :: (us ++ rest)) (fun he => op.token_ne.2.2 (Option.some.inj he))
    obtain ⟨outr, leftr, houtr, hleftr, hcr⟩ :=
      ihr hkr har hlt (.operator op.token op.precedence :: pending) (fun op' h => if_pos h)
        rest hrest
    refine ⟨lhs.postorder spell ++ outr, leftr ++ [(op.token, op.precedence)], ?_, ?_, ?_⟩
    · rw [List.map_append, List.append_assoc, ← List.append_assoc outr, houtr,
        ← List.append_assoc]
      rfl
    · intro x hx
      rcases List.mem_append.mp hx with hx | hx
      · exact Nat.le_trans hle (Nat.le_of_succ_le (hleftr x hx))
      · rw [List.mem_singleton.mp hx]
        exact hle
    · -- what the left operand left waiting binds at least as tightly, so it comes out here
      rw [List.append_assoc, List.cons_append, hcl,
        convertFrom_operator hop hleftl (hp op hle), map_append_map, houtl, hcr, map_append_map,
        List.map_append, List.append_assoc]
      rfl

/-- **The conversion is right.** However a tree is written down, with parentheses where they are
needed and perhaps elsewhere, the conversion gives its postorder. -/
theorem convert_rendered {α : Type} {spell : α → List Token} {e : Tree α} {ts : List Token}
    (h : Tree.Rendered spell 0 e ts) (hk : e.Known reg)
    (ha : ∀ a ∈ e.atoms, ∀ t ∈ spell a, Inert reg t) :
    convert reg ts = .ok (e.postorder spell) := by
  obtain ⟨out, left, hout, -, hc⟩ :=
    convertFrom_rendered h hk ha (Nat.zero_le _) [] (fun _ _ => rfl) [] (by simp)
  rw [List.append_nil, List.append_nil, convertFrom, drain_waiting] at hc
  rw [convert, hc, ← hout]
  rfl

end Postfix

end Proviso
