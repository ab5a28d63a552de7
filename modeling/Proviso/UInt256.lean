import Proviso.Octets

/-!
# 256-bit unsigned integers

Numbers below `2 ^ 256`. Every operation is checked: a result outside the range, or a division by
zero, is `none` and never wraps.
-/

namespace Proviso

/-- The decimal digits `0` to `9`, and nothing else. -/
def isDigit (c : Char) : Bool :=
  '0' ≤ c && c ≤ '9'

/-- The number that a non-empty run of decimal digits writes. -/
def natOfDigits? (cs : List Char) : Option Nat :=
  if cs ≠ [] ∧ cs.all isDigit then some (Nat.ofDigitChars 10 cs 0) else none

/-- The number of integers of 256 bits. -/
def UInt256.size : Nat :=
  Nat.pow 2 256

/-- A number below `2 ^ 256`. -/
structure UInt256 where
  toNat : Nat
  toNat_lt : toNat < UInt256.size
  deriving DecidableEq

namespace UInt256

/-- Integers are equal if they are equal as natural numbers. -/
theorem ext {a b : UInt256} (h : a.toNat = b.toNat) : a = b := by
  cases a; cases b; cases h; rfl

/-- The number `n`, if it is in range. -/
def ofNat? (n : Nat) : Option UInt256 :=
  if h : n < size then some ⟨n, h⟩ else none

/-- A number of 64 bits is in range. -/
def ofUInt64 (n : UInt64) : UInt256 :=
  ⟨n.toNat, Nat.lt_trans n.toNat_lt (by decide)⟩

/-- The integer 0. -/
def zero : UInt256 := ⟨0, by decide⟩

/-- The integer 1. -/
def one : UInt256 := ⟨1, by decide⟩

/-- The largest value. -/
def max : UInt256 := ⟨size - 1, by decide⟩

instance : Inhabited UInt256 := ⟨zero⟩

/-- A flag as an integer. -/
def ofBool (b : Bool) : UInt256 :=
  if b then one else zero

/-- Whether an integer is 0. -/
def isZero (a : UInt256) : Bool :=
  a.toNat == 0

/-- The value, if it fits in 64 bits. -/
def toUInt64? (a : UInt256) : Option UInt64 :=
  if a.toNat < UInt64.size then some (UInt64.ofNat a.toNat) else none

/-! ### Checked arithmetic -/

/-- The sum, if it is in range. -/
def add? (a b : UInt256) : Option UInt256 :=
  ofNat? (a.toNat + b.toNat)

/-- The difference, if it is not negative. -/
def sub? (a b : UInt256) : Option UInt256 :=
  if b.toNat ≤ a.toNat then ofNat? (a.toNat - b.toNat) else none

/-- The product, if it is in range. -/
def mul? (a b : UInt256) : Option UInt256 :=
  ofNat? (a.toNat * b.toNat)

/-- The quotient, unless the divisor is 0. -/
def div? (a b : UInt256) : Option UInt256 :=
  if b.toNat = 0 then none else ofNat? (a.toNat / b.toNat)

/-- The largest power of ten in range is the 77th. -/
def maxDecimalExponent : Nat := 77

/-- Ten to the power `e`, if it is in range. -/
def pow10? (e : Nat) : Option UInt256 :=
  if e ≤ maxDecimalExponent then ofNat? (Nat.pow 10 e) else none

/-! ### Decimal text -/

/-- Reads a non-empty run of decimal digits whose value is in range. -/
def ofDecimal? (s : String) : Option UInt256 :=
  (natOfDigits? s.toList).bind ofNat?

/-- Decimal digits without leading zeros. -/
def toDecimal (a : UInt256) : String :=
  Nat.repr a.toNat

/-! ### Bytes -/

/-- The 32 bytes of `a`, most significant first. -/
def toOctets (a : UInt256) : Octets 32 :=
  Octets.ofNat a.toNat

/-- The number that 32 bytes write. -/
def ofOctets (w : Octets 32) : UInt256 :=
  ⟨w.toNat, Nat.lt_of_lt_of_eq w.toNat_lt (by decide)⟩

end UInt256

end Proviso
