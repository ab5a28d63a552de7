import Proviso.Keccak
import Proviso.Word

/-!
# Storage slots

A variable lives at the first four bytes of the Keccak-256 digest of its name. Array elements and
struct fields live at the slots of the composite names `array[index]` and `owner.field`. Two names
with one digest share a slot.
-/

namespace Proviso

/-- The place of a variable in an account's storage. -/
abbrev Slot := Octets 4

namespace Slot

/-- The slot of a name: the first four bytes of its digest. -/
def ofBytes (name : List UInt8) : Slot :=
  ⟨(Keccak.digest name).bytes.take 4, by simp [(Keccak.digest name).length_bytes]⟩

/-- The slot of a variable. -/
def ofName (name : String) : Slot :=
  ofBytes (utf8 name)

/-- The slot of one element of an array. -/
def element (array : String) (index : Nat) : Slot :=
  ofName (array ++ "[" ++ Nat.repr index ++ "]")

/-- The slot of one field of a struct. -/
def field (owner name : String) : Slot :=
  ofName (owner ++ "." ++ name)

/-- The slot that records the kind of the value stored at `s`. -/
def kindTag (s : Slot) : Slot :=
  ofBytes (s.bytes ++ [0x23])

end Slot

end Proviso
