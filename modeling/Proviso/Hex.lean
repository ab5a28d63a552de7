/-!
# Hexadecimal text

Two digits a byte, the high half first. Writing uses lower case; reading takes either case.
-/

namespace Proviso.Hex

/-- The value of a hexadecimal digit of either case. -/
def digit? (c : Char) : Option Nat :=
  if '0' ≤ c ∧ c ≤ '9' then some (c.toNat - '0'.toNat)
  else if 'a' ≤ c ∧ c ≤ 'f' then some (c.toNat - 'a'.toNat + 10)
  else if 'A' ≤ c ∧ c ≤ 'F' then some (c.toNat - 'A'.toNat + 10)
  else none

/-- The lower-case digit of a value below sixteen. -/
def digitChar (n : Nat) : Char :=
  if n < 10 then Char.ofNat ('0'.toNat + n) else Char.ofNat ('a'.toNat + (n - 10))

/-- The two digits of a byte. -/
def encodeByte (b : UInt8) : List Char :=
  [digitChar (b.toNat / 16), digitChar (b.toNat % 16)]

/-- The digits of bytes, two for each. -/
def encode (bs : List UInt8) : List Char :=
  bs.flatMap encodeByte

/-- Reads pairs of digits; a digit left over, or a character that is no digit, is refused. -/
def decode : List Char → Option (List UInt8)
  | []          => some []
  | [_]         => none
  | h :: l :: r =>
    match digit? h, digit? l, decode r with
    | some h, some l, some bs => some (UInt8.ofNat (h * 16 + l) :: bs)
    | _, _, _ => none

/-- The digits of `bs` as text. -/
def text (bs : List UInt8) : String :=
  String.ofList (encode bs)

/-- The digits of `bs` behind `0x`. -/
def prefixed (bs : List UInt8) : String :=
  String.ofList ('0' :: 'x' :: encode bs)

/-- The digits behind a leading `0x` or `0X`. -/
def digits? : List Char → Option (List Char)
  | '0' :: x :: r => if x = 'x' ∨ x = 'X' then some r else none
  | _ => none

end Proviso.Hex
