import Proviso.Proofs.Atoms

/-!
# Values of expressions

An expression has a value without text, tokens and bytes: the left operand first, then the right
one, then the operator on two typed cells.

Main statement: the instructions of an expression leave its value on the stack, or fail as it fails
(`Tree.performAll_instrs`).
-/

namespace Proviso

/-! ### Operators on cells -/

/-- A number as an integer, or else a fault. -/
def inRange (n : Nat) (f : Fault) : Except Fault Cell :=
  if h : n < UInt256.size then .ok (.integer ⟨n, h⟩) else .error f

/-- A function on two integers; an operand of another type is at fault, the left one first. -/
def onIntegers (op : Token) (f : Nat → Nat → Except Fault Cell) : Cell → Cell → Except Fault Cell
  | .integer a, .integer b => f a.toNat b.toNat
  | .integer _, y          => .error (.typeMismatch op "integer" y.typeName)
  | x, _                   => .error (.typeMismatch op "integer" x.typeName)

/-- A function on two cells of one type. -/
def onAlike (op : Token) (f : Cell → Cell → Bool) (x y : Cell) : Except Fault Cell :=
  if x.typeName = y.typeName then .ok (.flag (f x y))
  else .error (.typeMismatch op x.typeName y.typeName)

/-- A connective on two flags, or on two integers that count as true unless they are zero. -/
def onTruth (op : Token) (f : Bool → Bool → Bool) : Cell → Cell → Except Fault Cell
  | .flag a, .flag b       => .ok (.flag (f a b))
  | .integer a, .integer b =>
      .ok (.integer (if f (a.toNat != 0) (b.toNat != 0) then .one else .zero))
  | .flag _, y             => .error (.typeMismatch op "flag" y.typeName)
  | .integer _, y          => .error (.typeMismatch op "integer" y.typeName)
  | x, _                   => .error (.typeMismatch op "flag or integer" x.typeName)

namespace Operator

/-- The value of an operator on the values of its operands. Arithmetic is that of the natural
numbers, as long as it stays in range. -/
def eval : Operator → Cell → Cell → Except Fault Cell
  | .compare .eq  => onAlike "==" fun x y => x = y
  | .compare .ne  => onAlike "!=" fun x y => x ≠ y
  | .compare .lt  => onIntegers "<" fun a b => .ok (.flag (a < b))
  | .compare .gt  => onIntegers ">" fun a b => .ok (.flag (a > b))
  | .compare .le  => onIntegers "<=" fun a b => .ok (.flag (a ≤ b))
  | .compare .ge  => onIntegers ">=" fun a b => .ok (.flag (a ≥ b))
  | .connect .and => onTruth "and" fun a b => a && b
  | .connect .or  => onTruth "or" fun a b => a || b
  | .connect .xor => onTruth "xor" fun a b => a != b
  | .compute .add => onIntegers "+" fun a b => inRange (a + b) (.overflow "+")
  | .compute .sub => onIntegers "-" fun a b =>
      if a < b then .error (.underflow "-") else inRange (a - b) (.overflow "-")
  | .compute .mul => onIntegers "*" fun a b => inRange (a * b) (.overflow "*")
  | .compute .div => onIntegers "/" fun a b =>
      if b = 0 then .error (.divisionByZero "/") else inRange (a / b) (.overflow "/")

/-- The value of a negation. -/
def evalNegation : Cell → Except Fault Cell
  | .flag b    => .ok (.flag !b)
  | .integer a => .ok (.integer (if a.toNat = 0 then .one else .zero))
  | x          => .error (.typeMismatch "!" "flag or integer" x.typeName)

/-- The instruction of an operator. -/
def instr : Operator → Instr Token
  | .compare c => ⟨.compare c, ()⟩
  | .connect c => ⟨.connect c, ()⟩
  | .compute a => ⟨.compute a, ()⟩

theorem evalNegation_eq (x : Cell) : evalNegation x = negate x := by
  cases x with
  | integer a =>
    rw [evalNegation, negate, UInt256.ofBool, UInt256.isZero]
    simp
  | flag b | account a | word w | text s => rfl

end Operator

/-- The machine compares cells as expressions do. -/
theorem Comparison.apply_eq_eval (c : Comparison) (x y : Cell) :
    c.apply x y = (Operator.compare c).eval x y := by
  cases c with
  | eq =>
    rw [apply, sameType, Operator.eval, onAlike]
    split <;> rfl
  | ne =>
    rw [apply, sameType, Operator.eval, onAlike]
    split
    · rw [decide_not]
      rfl
    · rfl
  | lt | gt | le | ge => cases x <;> cases y <;> rfl

/-- It connects flags as they do. -/
theorem Connective.apply_eq_eval (c : Connective) (x y : Cell) :
    c.apply x y = (Operator.connect c).eval x y := by
  cases c <;> cases x <;> cases y <;> rfl

theorem inRange_eq (n : Nat) (f : Fault) :
    inRange n f = match UInt256.ofNat? n with
      | some v => .ok (.integer v)
      | none   => .error f := by
  rw [inRange, UInt256.ofNat?]
  split <;> rfl

/-- It computes with integers as they do. -/
theorem Arithmetic.apply_integers (a : Arithmetic) (x y : UInt256) :
    a.apply (.integer x) (.integer y) = (Operator.compute a).eval (.integer x) (.integer y) := by
  cases a with
  | add | mul => exact (inRange_eq _ _).symm
  | sub =>
    show _ = if x.toNat < y.toNat then _ else inRange _ _
    by_cases h : y.toNat ≤ x.toNat
    · have hlt : x.toNat - y.toNat < UInt256.size :=
        Nat.lt_of_le_of_lt (Nat.sub_le _ _) x.toNat_lt
      rw [if_neg (Nat.not_lt.mpr h), inRange_eq, UInt256.ofNat?_of_lt hlt]
      simp [apply, integerPair, compute?, UInt256.sub?, h, UInt256.ofNat?_of_lt hlt]
    · rw [if_pos (Nat.lt_of_not_le h)]
      simp [apply, integerPair, compute?, UInt256.sub?, h]
      rfl
  | div =>
    show _ = if y.toNat = 0 then _ else inRange _ _
    by_cases h : y.toNat = 0
    · rw [if_pos h]
      simp [apply, integerPair, compute?, UInt256.div?, h]
      rfl
    · have hlt : x.toNat / y.toNat < UInt256.size :=
        Nat.lt_of_le_of_lt (Nat.div_le_self _ _) x.toNat_lt
      rw [if_neg h, inRange_eq, UInt256.ofNat?_of_lt hlt]
      simp [apply, integerPair, compute?, UInt256.div?, h, UInt256.ofNat?_of_lt hlt]

/-- So it does with any cells. -/
theorem Arithmetic.apply_eq_eval (a : Arithmetic) (x y : Cell) :
    a.apply x y = (Operator.compute a).eval x y := by
  cases x with
  | integer v =>
    cases y with
    | integer u => exact a.apply_integers v u
    | flag | account | word | text => cases a <;> rfl
  | flag | account | word | text => cases a <;> rfl

/-! ### Values of expressions -/

section Values

variable {σ : Type} [Store σ]

/-- A stored word as a value of a kind. -/
def ValueKind.view (w : Word) : ValueKind → Except Fault Cell
  | .uint256          => .ok (.integer w.toUInt256)
  | .bool             => .ok (.flag (w ≠ .zero))
  | .address          => .ok (.account w.toAddress)
  | .bytes32          => .ok (.word w)
  | .string | .struct =>
    match w.toText? with
    | some s => .ok (.text s)
    | none   => .error (.invalidOperand "loadLocal" "stored text is not UTF-8")

/-- What the host says. -/
def Host.answer (host : Host) : Reading → Cell
  | .blockNumber    => .integer (.ofUInt64 host.blockNumber)
  | .blockTimestamp => .integer (.ofUInt64 host.blockTimestamp)
  | .chainId        => .integer (.ofUInt64 host.chainId)
  | .sender         => .account host.sender
  | .value          => .integer host.value

/-- The value of an atom for an account, its storage and its surroundings. -/
def Atom.eval (account : Address) (store : σ) (host : Host) : Atom → Except Fault Cell
  | .number _ _ v _ _       => .ok (.integer v)
  | .flag b                 => .ok (.flag b)
  | .account _ a _          => .ok (.account a)
  | .word _ w _             => .ok (.word w)
  | .stored _ kind name _ _ => kind.view (Store.load store account (Slot.ofName name))
  | .reading r              => .ok (host.answer r)

namespace Tree

/-- The value of an expression, or the fault of the first node that has none: operands come before
their operator, and the left one before the right one. -/
def eval (account : Address) (store : σ) (host : Host) : Tree Atom → Except Fault Cell
  | .atom a            => a.eval account store host
  | .negation e        => do Operator.evalNegation (← e.eval account store host)
  | .binary op lhs rhs => do
      let x ← lhs.eval account store host
      let y ← rhs.eval account store host
      op.eval x y

/-- The most cells that the expression has on the stack at one time: the right operand is worked out
on top of the value of the left one. -/
def need : Tree Atom → Nat
  | .atom _           => 1
  | .negation e       => e.need
  | .binary _ lhs rhs => max lhs.need (rhs.need + 1)

/-- Bytes of the instructions of the expression. -/
def size : Tree Atom → Nat
  | .atom a           => a.size
  | .negation e       => e.size + 1
  | .binary _ lhs rhs => lhs.size + rhs.size + 1

/-- The instructions of the expression, each operator behind its operands. -/
def instrs : Tree Atom → List (Instr Token)
  | .atom a            => [a.instr]
  | .negation e        => e.instrs ++ [⟨.not, ()⟩]
  | .binary op lhs rhs => lhs.instrs ++ rhs.instrs ++ [op.instr]

omit [Store σ]

theorem need_pos (e : Tree Atom) : 0 < e.need := by
  induction e with
  | atom a => exact Nat.one_pos
  | negation e ih => exact ih
  | binary op lhs rhs ihl ihr => exact Nat.lt_of_lt_of_le ihl (Nat.le_max_left _ _)

/-- The instructions of an expression have its size. -/
theorem sizeSum_instrs (e : Tree Atom) : Assembly.sizeSum e.instrs = e.size := by
  induction e with
  | atom a => exact a.size_instr
  | negation e ih =>
    rw [instrs, Assembly.sizeSum_append, ih]
    rfl
  | binary op lhs rhs ihl ihr =>
    rw [instrs, Assembly.sizeSum_append, Assembly.sizeSum_append, ihl, ihr]
    cases op <;> rfl

/-- An expression has no branches. -/
theorem isStraight_instrs (e : Tree Atom) : ∀ i ∈ e.instrs, i.IsStraight := by
  induction e with
  | atom a => exact List.forall_mem_singleton.mpr a.isStraight_instr
  | negation e ih =>
    intro i hi
    rcases List.mem_append.mp hi with hi | hi
    · exact ih i hi
    · rw [List.mem_singleton.mp hi]
      exact ⟨rfl, by rintro ⟨⟩⟩
  | binary op lhs rhs ihl ihr =>
    intro i hi
    rcases List.mem_append.mp hi with hi | hi
    · rcases List.mem_append.mp hi with hi | hi
      · exact ihl i hi
      · exact ihr i hi
    · rw [List.mem_singleton.mp hi]
      cases op <;> exact ⟨rfl, by rintro ⟨⟩⟩

end Tree

end Values

/-! ### Carrying expressions out -/

section Carry

variable {σ : Type} {w : Workspace σ}

/-- The workspace with one more cell on its stack. -/
def Workspace.pushed (w : Workspace σ) (c : Cell) : Workspace σ :=
  { w with stack := ⟨c :: w.stack.cells, w.stack.limit⟩ }

theorem Effect.push_of_room (h : w.stack.depth < w.stack.limit) (c : Cell) :
    Effect.push c w = (.ok (), w.pushed c) := by
  have hp : Stack.push c w.stack = (.ok (), ⟨c :: w.stack.cells, w.stack.limit⟩) :=
    if_neg (Nat.not_le.mpr h)
  rw [push, onStack, Act.within, hp]
  rfl

/-- A result is pushed and the next instruction follows, or there is none and nothing is pushed. -/
theorem Effect.pushResult_next (h : w.stack.depth < w.stack.limit) (r : Except Fault Cell) :
    ((do pushResult r; return Control.next) : Effect σ (Control Token)) w = match r with
      | .ok c    => (.ok .next, w.pushed c)
      | .error f => (.error f, w) := by
  cases r with
  | error f => rfl
  | ok c => exact Act.bind_of_ok (push_of_room h c) _

theorem Octets.isZero_eq {n : Nat} (a : Octets n) : a.isZero = decide (a = .zero) := by
  rw [isZero, Bool.eq_iff_iff, List.all_eq_true, decide_eq_true_iff]
  constructor
  · intro h
    refine ext (List.eq_replicate_iff.mpr ⟨a.length_bytes, fun b hb => ?_⟩)
    exact eq_of_beq (h b hb)
  · rintro rfl b hb
    rw [List.eq_of_mem_replicate hb]
    rfl

/-- A stored word is seen as the machine sees it. -/
theorem ValueKind.view_eq (w : Word) (kind : ValueKind) :
    kind.view w = typedCell .loadLocal kind w := by
  cases kind with
  | bool =>
    rw [view, typedCell, Word.toBool, Octets.isZero_eq, decide_not]
  | uint256 | address | bytes32 | string | struct => rfl

variable [Store σ]

/-- An atom leaves its value on the stack. -/
theorem Atom.perform_instr (a : Atom) (h : w.stack.depth < w.stack.limit) :
    a.instr.perform w = match a.eval w.account w.store w.host with
      | .ok c    => (.ok .next, w.pushed c)
      | .error f => (.error f, w) := by
  cases a with
  | number | flag | account | word => exact Effect.pushResult_next h (.ok _)
  | stored type kind name hk hn =>
    rw [eval, ValueKind.view_eq]
    exact Effect.pushResult_next h _
  | reading r => cases r <;> exact Effect.pushResult_next h (.ok _)

/-- An operator replaces its two operands by its value. -/
theorem Operator.perform_instr (op : Operator) (h : w.stack.depth < w.stack.limit) (x y : Cell) :
    op.instr.perform ((w.pushed x).pushed y) = match op.eval x y with
      | .ok c    => (.ok .next, w.pushed c)
      | .error f => (.error f, w) := by
  cases op with
  | compare c =>
    rw [← c.apply_eq_eval]
    exact Effect.pushResult_next h (c.apply x y)
  | connect c =>
    rw [← c.apply_eq_eval]
    exact Effect.pushResult_next h (c.apply x y)
  | compute a =>
    rw [← a.apply_eq_eval]
    exact Effect.pushResult_next h (a.apply x y)

/-- A negation replaces the cell on top. -/
theorem Operator.perform_not (h : w.stack.depth < w.stack.limit) (x : Cell) :
    (⟨.not, ()⟩ : Instr Token).perform (w.pushed x) = match evalNegation x with
      | .ok c    => (.ok .next, w.pushed c)
      | .error f => (.error f, w) := by
  rw [evalNegation_eq]
  exact Effect.pushResult_next h (negate x)

/-- A run ends with the value on top of what was on the stack, or with its fault; nothing but the
stack has changed. -/
def Leaves (value : Except Fault Cell) (w : Workspace σ)
    (result : Except Fault Unit × Workspace σ) : Prop :=
  match value with
  | .ok c    => result = (.ok (), w.pushed c)
  | .error f => ∃ s, result = (.error f, { w with stack := s })

open Effect

theorem Leaves.of_perform {i : Instr Token} {value : Except Fault Cell} {w w' : Workspace σ}
    (h : i.perform w' = match value with
      | .ok c    => (.ok .next, w.pushed c)
      | .error f => (.error f, w)) : Leaves value w (performAll [i] w') := by
  cases value with
  | ok c => exact Act.bind_of_ok h _
  | error f => exact ⟨w.stack, Act.bind_of_error h _⟩

/-- What is carried out on the value goes on from where it was left. -/
theorem Leaves.bind {value : Except Fault Cell} {f : Cell → Except Fault Cell}
    {is js : List (Instr Token)} {w w' : Workspace σ} (hw : ∃ s, w' = { w with stack := s })
    (h : Leaves value w' (performAll is w'))
    (hf : ∀ c, Leaves (f c) w (performAll js (w'.pushed c))) :
    Leaves (value >>= f) w (performAll (is ++ js) w') := by
  rw [performAll_append]
  cases value with
  | ok c =>
    rw [Act.bind_of_ok h]
    exact hf c
  | error e =>
    obtain ⟨s, hs⟩ := h
    obtain ⟨s', rfl⟩ := hw
    exact ⟨s, Act.bind_of_error hs _⟩

/-- **Carrying an expression out.** Where the stack has room for what the expression needs, its
instructions leave its value on the stack, or they fail with the fault that the expression fails
with. -/
theorem Tree.performAll_instrs (e : Tree Atom) (w : Workspace σ)
    (h : w.stack.depth + e.need ≤ w.stack.limit) :
    Leaves (e.eval w.account w.store w.host) w (performAll e.instrs w) := by
  have hroom : w.stack.depth < w.stack.limit :=
    Nat.lt_of_lt_of_le (Nat.lt_add_of_pos_right e.need_pos) h
  induction e generalizing w with
  | atom a => exact .of_perform (a.perform_instr hroom)
  | negation e ih =>
    exact (ih w h hroom).bind ⟨_, rfl⟩ fun x => .of_perform (Operator.perform_not hroom x)
  | binary op lhs rhs ihl ihr =>
    have hneed : w.stack.depth + max lhs.need (rhs.need + 1) ≤ w.stack.limit := h
    have hl : w.stack.depth + lhs.need ≤ w.stack.limit := by omega
    have hr : w.stack.depth + 1 + rhs.need ≤ w.stack.limit := by omega
    rw [instrs, List.append_assoc]
    refine (ihl w hl hroom).bind ⟨_, rfl⟩ fun x => ?_
    -- the right operand starts from a stack with the value of the left one on top
    have hroom' : (w.pushed x).stack.depth < (w.pushed x).stack.limit :=
      Nat.lt_of_lt_of_le (Nat.lt_add_of_pos_right rhs.need_pos) hr
    exact (ihr (w.pushed x) hr hroom').bind ⟨_, rfl⟩ fun y =>
      .of_perform (op.perform_instr hroom x y)

end Carry

end Proviso
