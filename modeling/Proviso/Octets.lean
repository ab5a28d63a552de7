import Proviso.Hex

/-!
# Byte strings of fixed length

`Octets n` is a string of exactly `n` bytes, read as a number with the most significant byte
first. Addresses, words and slots are octets of 20, 32 and 4 bytes.
-/

namespace Proviso

/-- The number that `bs` writes in base 256, most significant byte first. -/
def natOfBytes (bs : List UInt8) : Nat :=
  bs.foldl (fun acc b => acc * 256 + b.toNat) 0

/-- The last `width` base-256 digits of `value`, most significant first. -/
def bytesOfNat : (width value : Nat) → List UInt8
  | 0,         _     => []
  | width + 1, value => bytesOfNat width (value / 256) ++ [UInt8.ofNat value]

@[simp] theorem length_bytesOfNat (width value : Nat) :
    (bytesOfNat width value).length = width := by
  induction width generalizing value with
  | zero => rfl
  | succ width ih => simp [bytesOfNat, ih]

/-- How many strings of `n` bytes there are. -/
def Octets.count (n : Nat) : Nat :=
  Nat.pow 256 n

theorem Octets.count_succ (n : Nat) : Octets.count (n + 1) = Octets.count n * 256 := rfl

/-- What stands before a list of bytes counts by the powers of 256 behind it. -/
theorem foldl_bytes_eq (bs : List UInt8) (acc : Nat) :
    bs.foldl (fun acc b => acc * 256 + b.toNat) acc
      = acc * Octets.count bs.length + natOfBytes bs := by
  induction bs generalizing acc with
  | nil => exact (Nat.mul_one acc).symm
  | cons b bs ih =>
    have hb : natOfBytes (b :: bs) = b.toNat * Octets.count bs.length + natOfBytes bs := by
      rw [natOfBytes, List.foldl_cons, ih, Nat.zero_mul, Nat.zero_add]
    have h : acc * 256 * Octets.count bs.length = acc * (Octets.count bs.length * 256) := by
      rw [Nat.mul_assoc, Nat.mul_comm 256]
    rw [List.foldl_cons, ih, hb, List.length_cons, Octets.count_succ, Nat.add_mul, h,
      Nat.add_assoc]

/-- The first byte counts for as many as there are strings of the others. -/
theorem natOfBytes_cons (b : UInt8) (bs : List UInt8) :
    natOfBytes (b :: bs) = b.toNat * Octets.count bs.length + natOfBytes bs := by
  rw [natOfBytes, List.foldl_cons, foldl_bytes_eq, Nat.zero_mul, Nat.zero_add]

/-- The number that bytes spell is below the count for their length. -/
theorem natOfBytes_lt (bs : List UInt8) : natOfBytes bs < Octets.count bs.length := by
  induction bs with
  | nil => exact Nat.one_pos
  | cons b bs ih =>
    have hb : b.toNat + 1 ≤ 256 := b.toNat_lt
    have hm := Nat.mul_le_mul_right (Octets.count bs.length) hb
    rw [Nat.add_mul, Nat.one_mul] at hm
    rw [natOfBytes_cons, List.length_cons, Octets.count_succ, Nat.mul_comm _ 256]
    omega

/-- A string of exactly `n` bytes. -/
structure Octets (n : Nat) where
  bytes : List UInt8
  length_bytes : bytes.length = n
  deriving DecidableEq

namespace Octets

variable {n : Nat}

/-- Octets are equal if their bytes are. -/
theorem ext {a b : Octets n} (h : a.bytes = b.bytes) : a = b := by
  cases a; cases b; cases h; rfl

/-- The bytes `bs`, if there are `n` of them. -/
def ofBytes? (bs : List UInt8) : Option (Octets n) :=
  if h : bs.length = n then some ⟨bs, h⟩ else none

/-- The first byte. -/
def head (a : Octets (n + 1)) : UInt8 :=
  a.bytes.head (List.ne_nil_of_length_eq_add_one a.length_bytes)

/-- All bytes zero. -/
def zero : Octets n := ⟨List.replicate n 0, by simp⟩

instance : Inhabited (Octets n) := ⟨zero⟩

/-- Whether all bytes are zero. -/
def isZero (a : Octets n) : Bool :=
  a.bytes.all (· == 0)

/-- The number that the bytes write. -/
def toNat (a : Octets n) : Nat :=
  natOfBytes a.bytes

/-- The number that octets spell is below their count. -/
theorem toNat_lt (a : Octets n) : a.toNat < count n := by
  have h := natOfBytes_lt a.bytes
  rwa [a.length_bytes] at h

/-- The low `n` bytes of a number. -/
def ofNat (v : Nat) : Octets n :=
  ⟨bytesOfNat n v, length_bytesOfNat n v⟩

/-- Reads `0x` or `0X` and exactly `2 * n` digits. -/
def ofHex? (s : String) : Option (Octets n) :=
  ((Hex.digits? s.toList).bind Hex.decode).bind ofBytes?

/-- Lower-case hexadecimal behind `0x`. -/
def toHex (a : Octets n) : String :=
  Hex.prefixed a.bytes

end Octets

end Proviso
