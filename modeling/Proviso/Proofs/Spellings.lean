import Proviso.Proofs.Literals

/-!
# How values are spelled

Accounts and words are spelled in hexadecimal, two digits a byte, and integers in decimal. A value
has one spelling that is written, in lower case and without zeros in front that say nothing; more
than one may be read. Reading a spelling and writing the value again gives the spelling that is
written, and a value that is written is read back.

Main statement: `literals_read_as_spelled`.
-/

namespace Proviso

/-! ### Hexadecimal digits in pairs -/

namespace Hex

variable {c : Char} {n : Nat} {cs ds : List Char} {bs : List UInt8} {t : Token}

/-- The character of a digit spells it. -/
theorem isDigitOf_digitChar (h : n < 16) : IsDigitOf (digitChar n) n := by
  have hall : ∀ n < 16, "0123456789abcdef".toList[n]? = some (digitChar n) := by decide
  exact .inl (hall n h)

/-- Whichever case a digit is read in, it is written in lower case. -/
theorem IsDigitOf.toLower_eq (h : IsDigitOf c n) : c.toLower = digitChar n := by
  have hlower : ∀ n < 16, "0123456789abcdef".toList[n]?.map Char.toLower = some (digitChar n) := by
    decide
  have hupper : ∀ n < 16, "0123456789ABCDEF".toList[n]?.map Char.toLower = some (digitChar n) := by
    decide
  have hn := h.lt
  rcases h with h | h
  · have hc := hlower n hn
    rw [h] at hc
    exact Option.some.inj hc
  · have hc := hupper n hn
    rw [h] at hc
    exact Option.some.inj hc

/-- What is written for some bytes are digits of these bytes. -/
theorem writes_encode (bs : List UInt8) : Writes (encode bs) bs := by
  induction bs with
  | nil => exact .nil
  | cons b bs ih =>
    have hb : b.toNat < 256 := b.toNat_lt
    have hhigh : b.toNat / 16 < 16 := by omega
    have hlow : b.toNat % 16 < 16 := by omega
    exact .cons (isDigitOf_digitChar hhigh) (isDigitOf_digitChar hlow) (by omega) ih

/-- Any digits of some bytes are those that are written for them, but for their case. -/
theorem Writes.map_toLower_eq (h : Writes cs bs) : cs.map Char.toLower = encode bs := by
  induction h with
  | nil => rfl
  | @cons h l high low b cs bs hh hl hb _ ih =>
    have hlow := hl.lt
    have hhigh : b.toNat / 16 = high := by omega
    have hmod : b.toNat % 16 = low := by omega
    have hbyte : encode (b :: bs) = digitChar high :: digitChar low :: encode bs := by
      rw [← hhigh, ← hmod]
      rfl
    rw [List.map_cons, List.map_cons, hh.toLower_eq, hl.toLower_eq, ih, hbyte]

/-- Digits write the bytes that they are decoded to. -/
theorem writes_of_decode (h : decode cs = some bs) : Writes cs bs := by
  fun_induction decode cs generalizing bs with
  | case1 =>
    cases h
    exact .nil
  | case2 => cases h
  | case3 c d r high low rest hr hd hc ih =>
    cases h
    have hhigh := isDigitOf_of_digit? hc
    have hlow := isDigitOf_of_digit? hd
    have hbyte : (UInt8.ofNat (high * 16 + low)).toNat = 16 * high + low := by
      have := hhigh.lt
      have := hlow.lt
      rw [UInt8.toNat_ofNat_of_lt' (by show _ < 256; omega), Nat.mul_comm]
    exact .cons hhigh hlow hbyte (ih hr)
  | case4 => cases h

/-- Reading and spelling agree. -/
theorem ofHex?_eq_some_iff {a : Octets n} : Octets.ofHex? t = some a ↔ IsNumeralOf t a.bytes := by
  refine ⟨fun h => ?_, IsNumeralOf.ofHex?⟩
  rw [Octets.ofHex?, Option.bind_eq_some_iff] at h
  obtain ⟨bs, hbs, ha⟩ := h
  obtain ⟨ds, hds, hdecode⟩ := Option.bind_eq_some_iff.mp hbs
  obtain ⟨x, hx, ht⟩ := digits?_eq_some_iff.mp hds
  have hbytes : a.bytes = bs := by
    rw [Octets.ofBytes?] at ha
    split at ha
    · cases ha
      rfl
    · cases ha
  rw [hbytes]
  exact ⟨x, ds, hx, by rw [← ht, String.ofList_toList], writes_of_decode hdecode⟩

theorem isNumeralOf_toHex (a : Octets n) : IsNumeralOf a.toHex a.bytes :=
  ⟨'x', encode a.bytes, .inl rfl, rfl, writes_encode a.bytes⟩

/-- A spelling has as many digits as the value needs, and nothing else. -/
theorem isSome_ofHex?_iff :
    (Octets.ofHex? t : Option (Octets n)).isSome = true ↔
      ∃ ds, Marks t ds ∧ ds.length = 2 * n ∧ ∀ c ∈ ds, ∃ d, IsDigitOf c d := by
  rw [Option.isSome_iff_exists]
  constructor
  · rintro ⟨a, ha⟩
    obtain ⟨x, ds, hx, rfl, hw⟩ := ofHex?_eq_some_iff.mp ha
    refine ⟨ds, ⟨x, hx, String.toList_ofList⟩, by rw [hw.length_eq, a.length_bytes], fun c hc => ?_⟩
    exact isSome_digit?_iff.mp (List.all_eq_true.mp hw.all_digits c hc)
  · rintro ⟨ds, ⟨x, hx, ht⟩, hlen, hds⟩
    obtain ⟨bs, hbs, hw⟩ := exists_writes hlen hds
    refine ⟨⟨bs, hbs⟩, ofHex?_eq_some_iff.mpr ⟨x, ds, hx, ?_, hw⟩⟩
    rw [← ht, String.ofList_toList]

/-- What is read is written with the same digits, in lower case. -/
theorem toHex_of_ofHex? {a : Octets n} (h : Octets.ofHex? t = some a) (hm : Marks t ds) :
    a.toHex = String.ofList ('0' :: 'x' :: ds.map Char.toLower) := by
  obtain ⟨x, cs, -, rfl, hw⟩ := ofHex?_eq_some_iff.mp h
  obtain ⟨y, -, ht⟩ := hm
  rw [String.toList_ofList] at ht
  obtain rfl : cs = ds := by simpa using (List.cons.inj (List.cons.inj ht).2).2
  rw [hw.map_toLower_eq]
  rfl

end Hex

/-! ### Decimal digits -/

/-- The number that a run of decimal digits denotes: each counts ten times as much as it would one
place further behind. -/
def decimalValue : List Char → Nat
  | []      => 0
  | c :: cs => (c.toNat - '0'.toNat) * Nat.pow 10 cs.length + decimalValue cs

/-- A run of digits without the zeros in front, of which one stays where nothing else is left. -/
def withoutLeadingZeros (cs : List Char) : List Char :=
  match cs.dropWhile (· == '0') with
  | []      => ['0']
  | c :: cs => c :: cs

section Decimal

variable {c : Char} {cs : List Char}

/-- The number is the sum of the digits times powers of ten. -/
theorem ofDigitChars_eq_decimalValue (cs : List Char) :
    Nat.ofDigitChars 10 cs 0 = decimalValue cs := by
  induction cs with
  | nil => rfl
  | cons c cs ih =>
    rw [Nat.ofDigitChars_cons, Nat.ofDigitChars_eq_ofDigitChars_zero, ih, Nat.mul_zero,
      Nat.zero_add, Nat.mul_comm]
    rfl

theorem toDigits_of_isDigit (h : isDigit c = true) :
    Nat.toDigits 10 (c.toNat - '0'.toNat) = [c] := by
  have hall : ∀ k < 10, (k + 48).isValidChar → Nat.digitChar k = Char.ofNat (k + 48) := by decide
  obtain ⟨hlow, hhigh⟩ := isDigit_iff.mp h
  have hzero : '0'.toNat = 48 := rfl
  have hc := hall (c.toNat - 48) (by omega) (by
    rw [Nat.sub_add_cancel hlow]
    exact c.valid)
  rw [hzero, Nat.toDigits_of_lt_base (by omega), hc, Nat.sub_add_cancel hlow, Char.ofNat_toNat]

/-- Digits behind a number other than zero are written behind it. -/
theorem toDigits_append {acc : Nat} (hpos : 0 < acc) (h : ∀ c ∈ cs, isDigit c = true) :
    Nat.toDigits 10 acc ++ cs = Nat.toDigits 10 (Nat.ofDigitChars 10 cs acc) := by
  induction cs generalizing acc with
  | nil => rw [List.append_nil, Nat.ofDigitChars_nil]
  | cons c cs ih =>
    obtain ⟨hc, hcs⟩ := List.forall_mem_cons.mp h
    have hdigit : c.toNat - '0'.toNat < 10 := by
      have := (isDigit_iff.mp hc).2
      show c.toNat - 48 < 10
      omega
    calc Nat.toDigits 10 acc ++ c :: cs
        = (Nat.toDigits 10 acc ++ [c]) ++ cs := by simp
      _ = Nat.toDigits 10 (10 * acc + (c.toNat - '0'.toNat)) ++ cs := by
          rw [← Nat.toDigits_append_toDigits (by decide) hpos hdigit, toDigits_of_isDigit hc]
      _ = Nat.toDigits 10 (Nat.ofDigitChars 10 (c :: cs) acc) := by
          rw [ih (by omega) hcs, Nat.ofDigitChars_cons]

/-- Zeros in front of a number do not count. -/
theorem ofDigitChars_dropWhile (cs : List Char) :
    Nat.ofDigitChars 10 (cs.dropWhile (· == '0')) 0 = Nat.ofDigitChars 10 cs 0 := by
  induction cs with
  | nil => rfl
  | cons c cs ih =>
    rw [List.dropWhile_cons]
    split
    · next hc =>
      obtain rfl : c = '0' := eq_of_beq hc
      rw [ih]
      rfl
    · rfl

/-- What is written for the value of a run of digits. -/
theorem repr_ofDigitChars (h : ∀ c ∈ cs, isDigit c = true) :
    Nat.repr (Nat.ofDigitChars 10 cs 0) = String.ofList (withoutLeadingZeros cs) := by
  rw [← String.toList_inj, Nat.toList_repr, String.toList_ofList, ← ofDigitChars_dropWhile,
    withoutLeadingZeros]
  cases hd : cs.dropWhile (· == '0') with
  | nil => exact Nat.toDigits_zero 10
  | cons d ds =>
    obtain ⟨hdigit, hds⟩ := List.forall_mem_cons.mp fun c hc =>
      h c ((List.dropWhile_suffix _).subset (hd ▸ hc))
    have hpos : 0 < d.toNat - '0'.toNat := by
      have hne : d ≠ '0' := by
        have hfirst := List.head?_dropWhile_not (· == '0') cs
        rw [hd] at hfirst
        simpa using hfirst
      have hlow := (isDigit_iff.mp hdigit).1
      have hzero : d.toNat ≠ 48 := fun he => hne (Char.toNat_inj.mp he)
      show 0 < d.toNat - 48
      omega
    rw [Nat.ofDigitChars_cons, Nat.mul_zero, Nat.zero_add, ← toDigits_append hpos hds,
      toDigits_of_isDigit hdigit]
    rfl

end Decimal

namespace UInt256

variable {s : String} {v : UInt256}

/-- A text spells an integer if it is decimal digits for a number in range. -/
theorem ofDecimal?_eq_some_iff :
    ofDecimal? s = some v ↔
      s ≠ "" ∧ (∀ c ∈ s.toList, isDigit c = true) ∧ v.toNat = Nat.ofDigitChars 10 s.toList 0 := by
  rw [ofDecimal?, Option.bind_eq_some_iff]
  constructor
  · rintro ⟨n, hn, hv⟩
    rw [natOfDigits?] at hn
    split at hn
    · next hs =>
      obtain ⟨hne, hall⟩ := hs
      cases hn
      rw [ofNat?] at hv
      split at hv
      · cases hv
        exact ⟨fun he => hne (by rw [he]; rfl), List.all_eq_true.mp hall, rfl⟩
      · cases hv
    · cases hn
  · rintro ⟨hne, hall, hv⟩
    refine ⟨_, natOfDigits?_of_isDigit (fun he => hne (String.toList_eq_nil_iff.mp he)) hall, ?_⟩
    rw [← hv, ofNat?_of_lt v.toNat_lt]

theorem isSome_ofDecimal?_iff :
    (ofDecimal? s).isSome = true ↔
      s ≠ "" ∧ (∀ c ∈ s.toList, isDigit c = true) ∧ decimalValue s.toList < size := by
  rw [Option.isSome_iff_exists, ← ofDigitChars_eq_decimalValue]
  constructor
  · rintro ⟨v, hv⟩
    obtain ⟨hne, hall, hval⟩ := ofDecimal?_eq_some_iff.mp hv
    exact ⟨hne, hall, hval ▸ v.toNat_lt⟩
  · rintro ⟨hne, hall, hlt⟩
    exact ⟨⟨_, hlt⟩, ofDecimal?_eq_some_iff.mpr ⟨hne, hall, rfl⟩⟩

end UInt256

/-- **Literals are read as they are spelled.** A text is read as a value of `n` bytes, as an account
of twenty or a word of thirty-two, exactly if it is `0x` or `0X` and `2 * n` hexadecimal digits of
either case; the value is then written as `0x` and these digits in lower case. A text is read as an
integer exactly if it is a run of decimal digits, not empty, that denotes a number in range; the
value is that number, and is written as the digits without superfluous zeros in front. Whatever is
written is read back. -/
theorem literals_read_as_spelled :
    (∀ (n : Nat) (s : String),
      ((Octets.ofHex? s : Option (Octets n)).isSome = true ↔
        ∃ ds, Hex.Marks s ds ∧ ds.length = 2 * n ∧ ∀ c ∈ ds, ∃ d, Hex.IsDigitOf c d) ∧
      ∀ (a : Octets n) (ds : List Char), Octets.ofHex? s = some a → Hex.Marks s ds →
        a.toHex = String.ofList ('0' :: 'x' :: ds.map Char.toLower)) ∧
    (∀ (n : Nat) (a : Octets n), Octets.ofHex? a.toHex = some a) ∧
    (∀ s : String,
      ((UInt256.ofDecimal? s).isSome = true ↔
        s ≠ "" ∧ (∀ c ∈ s.toList, isDigit c = true) ∧ decimalValue s.toList < UInt256.size) ∧
      ∀ v, UInt256.ofDecimal? s = some v →
        v.toNat = decimalValue s.toList ∧
        v.toDecimal = String.ofList (withoutLeadingZeros s.toList)) ∧
    ∀ v : UInt256, UInt256.ofDecimal? v.toDecimal = some v := by
  refine ⟨fun n s => ⟨Hex.isSome_ofHex?_iff, fun a ds => Hex.toHex_of_ofHex?⟩,
    fun n a => (Hex.isNumeralOf_toHex a).ofHex?, fun s => ⟨UInt256.isSome_ofDecimal?_iff, ?_⟩,
    UInt256.ofDecimal?_toDecimal⟩
  intro v hv
  obtain ⟨-, hall, hval⟩ := UInt256.ofDecimal?_eq_some_iff.mp hv
  rw [UInt256.toDecimal, hval]
  exact ⟨ofDigitChars_eq_decimalValue _, repr_ofDigitChars hall⟩

/-- An account in upper case, and an integer with zeros in front. -/
theorem literals_read_as_spelled_in_upper_case :
    (∃ a : Address, Octets.ofHex? "0X00112233445566778899AABBCCDDEEFF00112233" = some a ∧
      a.toHex = "0x00112233445566778899aabbccddeeff00112233") ∧
    ∃ v, UInt256.ofDecimal? "0070" = some v ∧ v.toNat = 70 ∧ v.toDecimal = "70" := by
  obtain ⟨hhex, -, hdecimal, -⟩ := literals_read_as_spelled
  constructor
  · obtain ⟨haccepts, hwrites⟩ := hhex 20 "0X00112233445566778899AABBCCDDEEFF00112233"
    have hmarks : Hex.Marks "0X00112233445566778899AABBCCDDEEFF00112233"
        "00112233445566778899AABBCCDDEEFF00112233".toList := ⟨'X', .inr rfl, by decide⟩
    have hdigits : ("00112233445566778899AABBCCDDEEFF00112233".toList.all
        fun c => (Hex.digit? c).isSome) = true := by decide
    obtain ⟨a, ha⟩ := Option.isSome_iff_exists.mp (haccepts.mpr
      ⟨_, hmarks, by decide, fun c hc =>
        Hex.isSome_digit?_iff.mp (List.all_eq_true.mp hdigits c hc)⟩)
    exact ⟨a, ha, (hwrites a _ ha hmarks).trans (by decide)⟩
  · obtain ⟨haccepts, hwrites⟩ := hdecimal "0070"
    have hdigits : ("0070".toList.all isDigit) = true := by decide
    obtain ⟨v, hv⟩ := Option.isSome_iff_exists.mp
      (haccepts.mpr ⟨by decide, List.all_eq_true.mp hdigits, by decide⟩)
    obtain ⟨hval, htext⟩ := hwrites v hv
    exact ⟨v, hv, hval, htext.trans (by decide)⟩

end Proviso
