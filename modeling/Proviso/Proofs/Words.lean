import Mathlib.Data.List.DropRight
import Mathlib.Tactic.SplitIfs
import Proviso.Proofs.Encoding
import Proviso.Table

/-!
# What words hold

A word holds an integer, a flag, an account, the header of an array or a text, and each of them is
found again. The other way round, a word is found again from its integer; and from its text, if it
has one. A text is followed by zeros, so what comes back is the text without the zeros at its end
(`Word.toText?_of_ofText?`); these are the bytes of characters at the end of the text, because no
other character has a zero among its bytes.
-/

namespace Proviso

/-! ### Integers, flags and accounts -/

namespace Word

/-- A word is determined by its integer. -/
theorem ofUInt256_toUInt256 (w : Word) : ofUInt256 w.toUInt256 = w := by
  have hlt : w.toNat < Octets.count 32 := w.toNat_lt
  refine Octets.ext (natOfBytes_inj ?_ (Octets.toNat_ofNat hlt))
  rw [Octets.length_bytes, Octets.length_bytes]

theorem toBool_ofBool (b : Bool) : (ofBool b).toBool = b := by
  cases b <;> rfl

theorem toAddress_ofAddress (a : Address) : (ofAddress a).toAddress = a :=
  Octets.ext (List.drop_left' List.length_replicate)

end Word

/-! ### Array headers -/

/-- A header is read back from its word. -/
theorem Header.decode?_encode (h : Header) : decode? h.encode = some h := by
  have hlen : h.length.toNat < Octets.count 8 := h.length.toNat_lt
  show (ValueKind.ofCode? h.kind.code).map _ = _
  rw [ValueKind.ofCode?_code, Option.map_some, List.drop_left' List.length_replicate,
    natOfBytes_bytesOfNat hlen, UInt64.ofNat_toNat]

/-! ### Bytes of texts -/

theorem utf8_eq_flatMap (s : String) : utf8 s = s.toList.flatMap String.utf8EncodeChar := by
  rw [utf8, String.toUTF8_eq_toByteArray, ← String.utf8Encode_toList, List.utf8Encode]
  simp

theorem length_utf8 (s : String) : (utf8 s).length = s.utf8ByteSize :=
  rfl

/-- A text is read back from its bytes. -/
theorem ofUTF8?_utf8 (s : String) : ofUTF8? (utf8 s) = some s := by
  rw [ofUTF8?, utf8, Array.toArray_toList, String.fromUTF8?, String.toUTF8_eq_toByteArray,
    dif_pos s.isValidUTF8]
  rfl

/-- Bytes that are a text are the bytes of that text. -/
theorem utf8_of_ofUTF8? {bs : List UInt8} {s : String} (h : ofUTF8? bs = some s) : utf8 s = bs := by
  rw [ofUTF8?, String.fromUTF8?] at h
  split at h
  · cases h
    rfl
  · cases h

/-- A zero is the byte of one character only: the bytes of the longer ones are at least 128. -/
theorem eq_nul_of_zero_mem {c : Char} (h : 0 ∈ String.utf8EncodeChar c) : c = '\x00' := by
  have hval : c.val.toNat = 0 := by
    rw [String.utf8EncodeChar] at h
    split_ifs at h <;>
      simp only [List.mem_cons, List.not_mem_nil, or_false, ← UInt8.toNat_inj, UInt8.toNat_ofNat',
        UInt8.toNat_zero] at h <;> omega
  exact Char.toNat_inj.mp hval

/-! ### Zeros at the end -/

/-- A text without the zero characters at its end. -/
def withoutTrailingNuls (s : String) : String :=
  String.ofList (s.toList.rdropWhile (· == '\x00'))

namespace Word

/-- Zeros at the end are cut off. -/
theorem trimZeros_append_replicate (bs : List UInt8) (n : Nat) :
    trimZeros (bs ++ List.replicate n 0) = trimZeros bs := by
  induction n with
  | zero => rw [List.replicate_zero, List.append_nil]
  | succ n ih =>
    rw [List.replicate_succ', ← List.append_assoc]
    exact (List.rdropWhile_concat_pos _ _ 0 rfl).trans ih

theorem trimZeros_of_getLast? {bs : List UInt8} (h : bs.getLast? ≠ some 0) : trimZeros bs = bs := by
  refine List.rdropWhile_eq_self_iff.mpr fun hne hzero => h ?_
  rw [List.getLast?_eq_some_getLast hne, eq_of_beq hzero]

/-- The zeros at the end of the bytes of a text are those of its characters. -/
theorem trimZeros_utf8 (s : String) : trimZeros (utf8 s) = utf8 (withoutTrailingNuls s) := by
  rw [withoutTrailingNuls, utf8_eq_flatMap, utf8_eq_flatMap, String.toList_ofList]
  induction s.toList using List.reverseRecOn with
  | nil => rfl
  | append_singleton cs c ih =>
    by_cases hc : c = '\x00'
    · have hpos : (cs ++ [c]).rdropWhile (· == '\x00') = cs.rdropWhile (· == '\x00') :=
        List.rdropWhile_concat_pos _ _ c (beq_of_eq hc)
      rw [hpos, ← ih, hc, List.flatMap_append]
      exact trimZeros_append_replicate _ 1
    · have hneg : (cs ++ [c]).rdropWhile (· == '\x00') = cs ++ [c] :=
        List.rdropWhile_concat_neg _ _ c (by simpa using hc)
      rw [hneg, List.flatMap_append, List.flatMap_singleton]
      -- the last byte is one of the last character
      refine trimZeros_of_getLast? fun hlast => hc (eq_nul_of_zero_mem ?_)
      rw [List.getLast?_append_of_ne_nil _ String.utf8EncodeChar_ne_nil] at hlast
      exact List.mem_of_getLast? hlast

variable {s : String} {w : Word}

/-- A text fits in a word if it has at most 32 bytes. -/
theorem ofText?_eq_none_iff : ofText? s = none ↔ 32 < s.utf8ByteSize := by
  rw [ofText?, ← length_utf8]
  simp

/-- The word of a text has its bytes first and zeros behind them. -/
theorem bytes_of_ofText? (h : ofText? s = some w) :
    w.bytes = utf8 s ++ List.replicate (32 - (utf8 s).length) 0 := by
  rw [ofText?] at h
  split at h
  · cases h
    rfl
  · cases h

/-- A text is read back from its word, without zero characters at its end. -/
theorem toText?_of_ofText? (h : ofText? s = some w) :
    w.toText? = some (withoutTrailingNuls s) := by
  rw [toText?, bytes_of_ofText? h, trimZeros_append_replicate, trimZeros_utf8, ofUTF8?_utf8]

/-- A word is determined by its text. -/
theorem ofText?_of_toText? (h : w.toText? = some s) : ofText? s = some w := by
  have hs : utf8 s = trimZeros w.bytes := utf8_of_ofUTF8? h
  have hzero : ∀ b ∈ w.bytes.rtakeWhile (· == 0), b = 0 := fun b hb =>
    eq_of_beq (List.mem_rtakeWhile_imp (p := (· == 0)) hb)
  have hbytes : w.bytes = utf8 s ++ List.replicate (w.bytes.rtakeWhile (· == 0)).length 0 := by
    rw [hs, ← List.eq_replicate_of_mem hzero]
    exact List.rdropWhile_append_rtakeWhile.symm
  have hlen := congrArg List.length hbytes
  rw [w.length_bytes, List.length_append, List.length_replicate] at hlen
  have hpad : (w.bytes.rtakeWhile (· == 0)).length = 32 - (utf8 s).length := by omega
  rw [hpad] at hbytes
  rw [ofText?]
  exact (dif_pos (by omega)).trans (congrArg some (Octets.ext hbytes.symm))

end Word

end Proviso
