import Proviso.UInt256

/-!
# Addresses and storage words

An address is twenty bytes, a storage word thirty-two. A word holds an integer, a flag, an address
(in its low twenty bytes) or a text (in its first bytes, zeros behind); each has a view of it.
-/

namespace Proviso

/-- An account. -/
abbrev Address := Octets 20

/-- The content of one storage slot. -/
abbrev Word := Octets 32

/-- The UTF-8 bytes of a text. -/
def utf8 (s : String) : List UInt8 :=
  s.toUTF8.data.toList

/-- The text that `bs` encodes, if it is valid UTF-8. -/
def ofUTF8? (bs : List UInt8) : Option String :=
  String.fromUTF8? ⟨bs.toArray⟩

namespace Word

/-- The word of an integer, most significant byte first. -/
def ofUInt256 (v : UInt256) : Word :=
  v.toOctets

/-- The integer that a word spells. -/
def toUInt256 (w : Word) : UInt256 :=
  UInt256.ofOctets w

/-- A flag is the number one or zero. -/
def ofBool (b : Bool) : Word :=
  ⟨List.replicate 31 0 ++ [if b then 1 else 0], by simp⟩

/-- Every word but zero counts as true. -/
def toBool (w : Word) : Bool :=
  !w.isZero

/-- The word of an account: its bytes behind twelve zeros. -/
def ofAddress (a : Address) : Word :=
  ⟨List.replicate 12 0 ++ a.bytes, by simp [a.length_bytes]⟩

/-- The low twenty bytes. -/
def toAddress (w : Word) : Address :=
  ⟨w.bytes.drop 12, by simp [w.length_bytes]⟩

/-- A text of at most 32 bytes, with zeros behind it. -/
def ofText? (s : String) : Option Word :=
  let bs := utf8 s
  if h : bs.length ≤ 32 then
    some ⟨bs ++ List.replicate (32 - bs.length) 0, by simp; omega⟩
  else none

/-- The bytes `bs` without the zeros at their end. -/
def trimZeros (bs : List UInt8) : List UInt8 :=
  (bs.reverse.dropWhile (· == 0)).reverse

/-- The bytes before the trailing zeros as text, if they are valid UTF-8. -/
def toText? (w : Word) : Option String :=
  ofUTF8? (trimZeros w.bytes)

end Word

end Proviso
