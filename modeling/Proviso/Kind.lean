import Proviso.Word

/-!
# Kinds of stored values

The tag that typed loads, array headers and struct fields carry.
-/

namespace Proviso

/-- The kinds of values in storage. -/
inductive ValueKind where
  | uint256 | bool | address | bytes32 | string | struct
  deriving DecidableEq, Repr

namespace ValueKind

/-- All kinds. -/
def all : List ValueKind :=
  [.uint256, .bool, .address, .bytes32, .string, .struct]

/-- The byte that stands for a kind. -/
def code : ValueKind → UInt8
  | .uint256 => 1
  | .bool    => 2
  | .address => 3
  | .bytes32 => 4
  | .string  => 5
  | .struct  => 6

/-- The kind that a byte stands for. -/
def ofCode? (c : UInt8) : Option ValueKind :=
  all.find? (·.code == c)

/-- The name of a kind in a program. -/
def name : ValueKind → String
  | .uint256 => "uint256"
  | .bool    => "bool"
  | .address => "address"
  | .bytes32 => "bytes32"
  | .string  => "string"
  | .struct  => "struct"

/-- The kind of that name; `uint` is a second spelling of `uint256`. -/
def ofName? (s : String) : Option ValueKind :=
  if s = "uint" then some .uint256 else all.find? (·.name == s)

/-- Each kind has a byte of its own. -/
@[simp] theorem ofCode?_code (k : ValueKind) : ofCode? k.code = some k := by
  cases k <;> rfl

end ValueKind

/-! ### Array headers -/

/-- What the slot of an array's own name holds: the kind of its elements and their number. -/
structure Header where
  kind : ValueKind
  length : UInt64
  deriving DecidableEq

namespace Header

/-- The kind's code in the first byte and the length in the last eight. -/
def encode (h : Header) : Word :=
  ⟨h.kind.code :: (List.replicate 23 0 ++ bytesOfNat 8 h.length.toNat), by simp⟩

/-- No array stands behind a word whose first byte is no kind's code, such as the zero word. -/
def decode? (w : Word) : Option Header :=
  match w.bytes with
  | []     => none
  | c :: r => (ValueKind.ofCode? c).map fun k => ⟨k, .ofNat (natOfBytes (r.drop 23))⟩

end Header

end Proviso
