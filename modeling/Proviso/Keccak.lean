import Proviso.Octets

/-!
# The Keccak-256 digest

The sponge over the 1600-bit permutation with a rate of 136 bytes. A message is padded with a
byte `0x01`, zeros, and `0x80` in the last byte of the last block. A state is 25 lanes of 64 bits;
the lane at column `x` and row `y` stands at index `x + 5 * y`.
-/

namespace Proviso.Keccak

/-- The lanes of the state, row by row. -/
abbrev State := Vector UInt64 25

/-- The lane at column `x` and row `y`, both taken modulo five. -/
def State.lane (s : State) (x y : Nat) : UInt64 :=
  have : x % 5 + 5 * (y % 5) < 25 := by omega
  s[x % 5 + 5 * (y % 5)]

/-- A state from a lane for each column and row. -/
def State.ofLanes (f : Nat → Nat → UInt64) : State :=
  Vector.ofFn fun i => f (i.val % 5) (i.val / 5)

/-- Rotates a lane to the left. -/
def rotate (v : UInt64) (k : Nat) : UInt64 :=
  if k % 64 = 0 then v
  else (v <<< UInt64.ofNat (k % 64)) ||| (v >>> UInt64.ofNat (64 - k % 64))

/-- By how much each lane rotates, by index. -/
def offsets : Vector Nat 25 :=
  #v[0, 1, 62, 28, 27, 36, 44, 6, 55, 20, 3, 10, 43, 25, 39, 41, 45, 15, 21, 8, 18, 2, 61, 56, 14]

/-- The constant that each of the 24 rounds adds to the first lane. -/
def roundConstants : List UInt64 :=
  [0x0000000000000001, 0x0000000000008082, 0x800000000000808a, 0x8000000080008000,
   0x000000000000808b, 0x0000000080000001, 0x8000000080008081, 0x8000000000008009,
   0x000000000000008a, 0x0000000000000088, 0x0000000080008009, 0x000000008000000a,
   0x000000008000808b, 0x800000000000008b, 0x8000000000008089, 0x8000000000008003,
   0x8000000000008002, 0x8000000000000080, 0x000000000000800a, 0x800000008000000a,
   0x8000000080008081, 0x8000000000008080, 0x0000000080000001, 0x8000000080008008]

/-- The parity of a column. -/
def parity (s : State) (x : Nat) : UInt64 :=
  s.lane x 0 ^^^ s.lane x 1 ^^^ s.lane x 2 ^^^ s.lane x 3 ^^^ s.lane x 4

/-- Adds to each lane the parities of the two neighbouring columns. -/
def mixColumns (s : State) : State :=
  let parities : Vector UInt64 5 := Vector.ofFn fun x => parity s x.val
  let sums : Vector UInt64 5 := Vector.ofFn fun x =>
    have : (x.val + 4) % 5 < 5 := by omega
    have : (x.val + 1) % 5 < 5 := by omega
    parities[(x.val + 4) % 5] ^^^ rotate parities[(x.val + 1) % 5] 1
  State.ofLanes fun x y =>
    have : x % 5 < 5 := by omega
    s.lane x y ^^^ sums[x % 5]

/-- Rotates every lane by its offset and moves it to its new place. -/
def scatter (s : State) : State :=
  State.ofLanes fun x y =>
    let u := (x + 3 * y) % 5
    let v := x % 5
    have : u + 5 * v < 25 := by omega
    rotate (s.lane u v) offsets[u + 5 * v]

/-- Combines each lane with the next two of its row. -/
def mixRows (s : State) : State :=
  State.ofLanes fun x y => s.lane x y ^^^ (~~~(s.lane (x + 1) y) &&& s.lane (x + 2) y)

/-- One round, with its constant. -/
def round (s : State) (constant : UInt64) : State :=
  let t := mixRows (scatter (mixColumns s))
  t.set 0 (t.lane 0 0 ^^^ constant)

/-- All rounds, one for each constant. -/
def permute (s : State) : State :=
  roundConstants.foldl round s

/-- Bytes of a block. -/
def rate : Nat := 136

/-- The message with its padding: at least one byte, up to a multiple of the rate. -/
def pad (message : List UInt8) : List UInt8 :=
  let gap := rate - message.length % rate
  if gap = 1 then message ++ [0x81]
  else message ++ 0x01 :: (List.replicate (gap - 2) 0 ++ [0x80])

/-- A lane from its bytes, least significant first. -/
def laneOfBytes (bs : List UInt8) : UInt64 :=
  bs.foldr (fun b acc => (acc <<< 8) ||| b.toUInt64) 0

/-- The bytes of a lane, least significant first. -/
def bytesOfLane (v : UInt64) : List UInt8 :=
  (List.range 8).map fun i => (v >>> UInt64.ofNat (8 * i)).toUInt8

/-- Adds a block to the state and permutes. -/
def absorb (s : State) (block : List UInt8) : State :=
  permute (State.ofLanes fun x y =>
    s.lane x y ^^^ laneOfBytes ((block.drop (8 * (x + 5 * y))).take 8))

/-- The blocks of a padded message, one after another. -/
def absorbAll : (blocks : Nat) → State → List UInt8 → State
  | 0,          s, _  => s
  | blocks + 1, s, bs => absorbAll blocks (absorb s (bs.take rate)) (bs.drop rate)

/-- The 32-byte digest of a message. -/
def digest (message : List UInt8) : Octets 32 :=
  let padded := pad message
  let s := absorbAll (padded.length / rate) (Vector.replicate 25 0) padded
  ⟨((List.range 4).flatMap fun x => bytesOfLane (s.lane x 0)), by
    simp only [List.length_flatMap, bytesOfLane, List.length_map, List.length_range]
    rfl⟩

end Proviso.Keccak
