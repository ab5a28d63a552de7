import Proviso.Opcode
import Proviso.Stack

/-!
# Operators on cells

Comparison, logic and arithmetic on typed cells. Equality wants two operands of one type, order
and arithmetic want integers, and the connectives want two flags or two integers. Arithmetic is
checked and never wraps.
-/

namespace Proviso

/-- Both operands as integers; the left one is looked at first. -/
def integerPair (op : String) : Cell → Cell → Except Fault (UInt256 × UInt256)
  | .integer a, .integer b => .ok (a, b)
  | .integer _, rhs        => .error (rhs.mismatch op "integer")
  | lhs, _                 => .error (lhs.mismatch op "integer")

namespace Comparison

/-- The name of a comparison in a program and in its faults. -/
def mnemonic (c : Comparison) : String :=
  (Opcode.compare c).mnemonic

/-- Whether a comparison holds between two integers. -/
def holds : Comparison → UInt256 → UInt256 → Bool
  | .eq, a, b => a == b
  | .ne, a, b => a != b
  | .lt, a, b => a.toNat < b.toNat
  | .gt, a, b => b.toNat < a.toNat
  | .le, a, b => a.toNat ≤ b.toNat
  | .ge, a, b => b.toNat ≤ a.toNat

/-- Whether two cells of one type are equal. -/
def sameType (op : String) (lhs rhs : Cell) : Except Fault Bool :=
  if lhs.typeName = rhs.typeName then .ok (lhs == rhs)
  else .error (rhs.mismatch op lhs.typeName)

/-- A comparison of two cells. Equality asks for two cells of one type, order for integers. -/
def apply (c : Comparison) (lhs rhs : Cell) : Except Fault Cell :=
  match c with
  | .eq => (sameType c.mnemonic lhs rhs).map .flag
  | .ne => (sameType c.mnemonic lhs rhs).map fun b => .flag !b
  | .lt | .gt | .le | .ge =>
      (integerPair c.mnemonic lhs rhs).map fun (a, b) => .flag (c.holds a b)

end Comparison

namespace Connective

/-- The name of a connective in a program and in its faults. -/
def mnemonic (c : Connective) : String :=
  (Opcode.connect c).mnemonic

/-- The truth value that a connective gives. -/
def holds : Connective → Bool → Bool → Bool
  | .and, a, b => a && b
  | .or, a, b  => a || b
  | .xor, a, b => a != b

/-- The answer has the type of the operands; an integer counts as true unless it is zero. -/
def apply (c : Connective) : Cell → Cell → Except Fault Cell
  | .flag a, .flag b       => .ok (.flag (c.holds a b))
  | .integer a, .integer b => .ok (.integer (.ofBool (c.holds (!a.isZero) (!b.isZero))))
  | .flag _, rhs           => .error (rhs.mismatch c.mnemonic "flag")
  | .integer _, rhs        => .error (rhs.mismatch c.mnemonic "integer")
  | lhs, _                 => .error (lhs.mismatch c.mnemonic "flag or integer")

end Connective

namespace Arithmetic

/-- The name of an operation in a program and in its faults. -/
def mnemonic (a : Arithmetic) : String :=
  (Opcode.compute a).mnemonic

/-- The result of an operation, if there is one below `2 ^ 256`. -/
def compute? : Arithmetic → UInt256 → UInt256 → Option UInt256
  | .add => UInt256.add?
  | .sub => UInt256.sub?
  | .mul => UInt256.mul?
  | .div => UInt256.div?

/-- What is wrong when there is no result. -/
def fault (a : Arithmetic) : Fault :=
  match a with
  | .add | .mul => .overflow a.mnemonic
  | .sub        => .underflow a.mnemonic
  | .div        => .divisionByZero a.mnemonic

/-- An operation on two cells, which have to be integers. -/
def apply (a : Arithmetic) (lhs rhs : Cell) : Except Fault Cell :=
  match integerPair a.mnemonic lhs rhs with
  | .error f    => .error f
  | .ok (x, y)  =>
    match a.compute? x y with
    | some v => .ok (.integer v)
    | none   => .error a.fault

end Arithmetic

/-- A flag is turned round; an integer becomes one if it is zero, and zero otherwise. -/
def negate : Cell → Except Fault Cell
  | .flag b    => .ok (.flag !b)
  | .integer v => .ok (.integer (.ofBool v.isZero))
  | c          => .error (c.mismatch Opcode.not.mnemonic "flag or integer")

end Proviso
