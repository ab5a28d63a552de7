import Mathlib.Tactic.Ring
import Proviso.Source.Numeral

/-!
# What numerals stand for

A decimal numeral has a whole part, and perhaps a fraction, an exponent and a unit. Its value is
its digits, read as one number, times a power of ten; the numeral is accepted if that is an integer
in range, and replaced by the plain digits of it.

Main statements: `Numeral.value_body_eq`, the value of a decimal numeral or what keeps it from
having one; `Numeral.Parts.normalize_tokens` for decimal numerals among other tokens; and
`Hex.IsNumeralOf.canonical` for the hexadecimal ones, which stay as they are.
-/

namespace Proviso

/-! ### Digits -/

theorem isDigit_ne {c d : Char} (hc : isDigit c = true) (hd : isDigit d = false) : c ≠ d := by
  rintro rfl
  rw [hc] at hd
  cases hd

theorem not_mem_of_isDigit {cs : List Char} {d : Char} (h : ∀ c ∈ cs, isDigit c = true)
    (hd : isDigit d = false) : d ∉ cs :=
  fun hm => isDigit_ne (h d hm) hd rfl

/-- A number is written in decimal digits. -/
theorem isDigit_repr (n : Nat) : ∀ c ∈ (Nat.repr n).toList, isDigit c = true := by
  intro c hc
  rw [Nat.toList_repr] at hc
  exact Nat.isDigit_of_mem_toDigits (by decide) (by decide) hc

theorem repr_inj {n m : Nat} (h : Nat.repr n = Nat.repr m) : n = m := by
  have hd := congrArg (Nat.ofDigitChars 10 ·.toList 0) h
  simpa only [Nat.toList_repr, Nat.ofDigitChars_ten_toDigits] using hd

/-- The decimal digits are the characters 48 to 57. -/
theorem isDigit_iff {c : Char} : isDigit c = true ↔ 48 ≤ c.toNat ∧ c.toNat ≤ 57 := by
  simp [isDigit, Char.le_def, UInt32.le_iff_toNat_le]

/-- A run of digits writes less than ten to the power of their number. -/
theorem ofDigitChars_lt {cs : List Char} (h : ∀ c ∈ cs, isDigit c = true) :
    Nat.ofDigitChars 10 cs 0 < 10 ^ cs.length := by
  induction cs with
  | nil => decide
  | cons c cs ih =>
    obtain ⟨hc, hcs⟩ := List.forall_mem_cons.mp h
    have hd : c.toNat - '0'.toNat ≤ 9 := by
      have := isDigit_iff.mp hc
      exact Nat.sub_le_of_le_add this.2
    have hm := Nat.mul_le_mul_left (10 ^ cs.length) hd
    have hlt := ih hcs
    rw [Nat.ofDigitChars_cons, Nat.ofDigitChars_eq_ofDigitChars_zero, Nat.mul_zero, Nat.zero_add,
      List.length_cons, pow_succ]
    omega

/-- Only zeros write zero. -/
theorem ofDigitChars_eq_zero_iff {cs : List Char} (h : ∀ c ∈ cs, isDigit c = true) :
    Nat.ofDigitChars 10 cs 0 = 0 ↔ ∀ c ∈ cs, c = '0' := by
  induction cs with
  | nil => simp
  | cons c cs ih =>
    obtain ⟨hc, hcs⟩ := List.forall_mem_cons.mp h
    have hpow : 10 ^ cs.length ≠ 0 := Nat.pos_iff_ne_zero.mp (Nat.pow_pos (by decide))
    have hval : c.toNat - '0'.toNat = 0 ↔ c = '0' := by
      rw [Nat.sub_eq_zero_iff_le, ← Char.toNat_inj]
      exact ⟨fun hle => Nat.le_antisymm hle (isDigit_iff.mp hc).1, Nat.le_of_eq⟩
    rw [Nat.ofDigitChars_cons, Nat.ofDigitChars_eq_ofDigitChars_zero, Nat.mul_zero, Nat.zero_add,
      Nat.add_eq_zero_iff, Nat.mul_eq_zero, or_iff_right hpow, hval, ih hcs, List.forall_mem_cons]

/-- Decimal digits spell a number. -/
theorem natOfDigits?_of_isDigit {cs : List Char} (hne : cs ≠ []) (h : ∀ c ∈ cs, isDigit c = true) :
    natOfDigits? cs = some (Nat.ofDigitChars 10 cs 0) := by
  rw [natOfDigits?, if_pos ⟨hne, List.all_eq_true.mpr h⟩]

namespace UInt256

theorem ofNat?_of_lt {n : Nat} (h : n < size) : ofNat? n = some ⟨n, h⟩ :=
  dif_pos h

theorem ofNat?_of_le {n : Nat} (h : size ≤ n) : ofNat? n = none :=
  dif_neg (Nat.not_lt.mpr h)

/-- A number other than zero, times a power of ten. Where the power is out of range, so is the
product. -/
theorem pow10?_bind_mul? {m : UInt256} (hm : m.toNat ≠ 0) (k : Nat) :
    (pow10? k).bind m.mul? = ofNat? (m.toNat * 10 ^ k) := by
  rw [pow10?]
  split
  · next hk =>
    have hlt : 10 ^ k < size :=
      calc 10 ^ k ≤ 10 ^ maxDecimalExponent := Nat.pow_le_pow_right (by decide) hk
        _ < size := by decide
    show (ofNat? (10 ^ k)).bind m.mul? = _
    rw [ofNat?_of_lt hlt]
    rfl
  · next hk =>
    have hle : size ≤ m.toNat * 10 ^ k :=
      calc size ≤ 10 ^ (maxDecimalExponent + 1) := by decide
        _ ≤ 10 ^ k := Nat.pow_le_pow_right (by decide) (Nat.lt_of_not_le hk)
        _ ≤ m.toNat * 10 ^ k := Nat.le_mul_of_pos_left _ (Nat.pos_of_ne_zero hm)
    rw [ofNat?_of_le hle]
    rfl

theorem isDigit_toDecimal (v : UInt256) : ∀ c ∈ v.toDecimal.toList, isDigit c = true :=
  isDigit_repr v.toNat

theorem toDecimal_ne_nil (v : UInt256) : v.toDecimal.toList ≠ [] := by
  rw [toDecimal, Nat.toList_repr]
  exact Nat.toDigits_ne_nil

/-- Plain digits are read back. -/
theorem ofDecimal?_toDecimal (v : UInt256) : ofDecimal? v.toDecimal = some v := by
  rw [ofDecimal?, natOfDigits?_of_isDigit v.toDecimal_ne_nil v.isDigit_toDecimal, toDecimal,
    Nat.toList_repr, Nat.ofDigitChars_ten_toDigits]
  exact ofNat?_of_lt v.toNat_lt

/-- The digits of an integer make a numeric token. -/
theorem isNumeric_toDecimal (v : UInt256) : Token.isNumeric v.toDecimal = true := by
  obtain ⟨c, cs, hc⟩ := List.exists_cons_of_ne_nil v.toDecimal_ne_nil
  rw [Token.isNumeric, hc]
  exact v.isDigit_toDecimal c (hc ▸ .head _)

end UInt256

/-! ### Splitting -/

/-- Without an `x`, no digits stand behind `0x`. -/
theorem Hex.digits?_of_not_mem {cs : List Char} (h : 'x' ∉ cs ∧ 'X' ∉ cs) : digits? cs = none := by
  unfold digits?
  split
  · next x r =>
    refine if_neg ?_
    rintro (rfl | rfl)
    · exact h.1 (by simp)
    · exact h.2 (by simp)
  · rfl

section FirstOccurrence

variable {α : Type} [BEq α] [LawfulBEq α] {a : α} {l r : List α}

theorem bne_of_not_mem (h : a ∉ l) : ∀ x ∈ l, (x != a) = true := by
  intro x hx
  simpa using fun he : x = a => h (he ▸ hx)

/-- What stands before the first `a` is taken. -/
theorem takeWhile_bne_append (h : a ∉ l) : (l ++ a :: r).takeWhile (· != a) = l := by
  rw [List.takeWhile_append_of_pos (bne_of_not_mem h), List.takeWhile_cons, if_neg (by simp),
    List.append_nil]

/-- What is left starts with the first `a`. -/
theorem dropWhile_bne_append (h : a ∉ l) : (l ++ a :: r).dropWhile (· != a) = a :: r := by
  rw [List.dropWhile_append_of_pos (bne_of_not_mem h), List.dropWhile_cons, if_neg (by simp)]

end FirstOccurrence

namespace Token

variable {c : Char} {l r : List Char}

/-- Without the character there is nothing to split at. -/
theorem splitAt?_of_not_mem (h : c ∉ l) : splitAt? c l = none := by
  have hd : (l ++ []).dropWhile (· != c) = [] := List.dropWhile_append_of_pos (bne_of_not_mem h)
  rw [List.append_nil] at hd
  rw [splitAt?, hd]

/-- The text is split at the first such character. -/
theorem splitAt?_append (h : c ∉ l) : splitAt? c (l ++ c :: r) = some (l, r) := by
  rw [splitAt?, dropWhile_bne_append h, takeWhile_bne_append h]

/-- Splitting takes a list apart at the first occurrence, if there is one. -/
theorem exists_splitAt? (c : Char) (cs : List Char) :
    ∃ (l : List Char) (r? : Option (List Char)), c ∉ l ∧ cs = l ++ (r?.map (c :: ·)).getD [] ∧
      splitAt? c cs = r?.map (l, ·) := by
  by_cases h : c ∈ cs
  · obtain ⟨l, r, rfl, hl⟩ := List.eq_append_cons_of_mem h
    exact ⟨l, some r, hl, rfl, splitAt?_append hl⟩
  · exact ⟨cs, none, h, (List.append_nil cs).symm, splitAt?_of_not_mem h⟩

/-- An ending that is there is dropped. -/
theorem dropEnding?_append (ending cs : List Char) :
    dropEnding? ending (cs ++ ending) = some cs := by
  rw [dropEnding?, if_pos (List.isSuffixOf_iff_suffix.mpr (List.suffix_append cs ending))]
  simp

/-- A text that ends in another character does not have the ending. -/
theorem dropEnding?_of_getLast? {ending cs : List Char} (hne : ending ≠ [])
    (h : cs.getLast? ≠ ending.getLast?) : dropEnding? ending cs = none := by
  refine if_neg fun hs => h ?_
  obtain ⟨pre, rfl⟩ := List.isSuffixOf_iff_suffix.mp hs
  rw [List.getLast?_append, List.getLast?_eq_some_getLast hne, Option.some_or]

theorem dropEnding?_of_not_suffix {ending cs : List Char} (h : ¬ ending <:+ cs) :
    dropEnding? ending cs = none :=
  if_neg (mt List.isSuffixOf_iff_suffix.mp h)

end Token

/-- What stands in front of the first mark can be told from what stands behind it. -/
theorem parts_eq_of_append_eq {c : Char} {s s' t t' mark : String} (hm : mark.toList = [c])
    (hs : c ∉ s.toList) (hs' : c ∉ s'.toList) (h : s ++ mark ++ t = s' ++ mark ++ t') :
    s = s' ∧ t = t' := by
  have hparts : ∀ {s t : String}, c ∉ s.toList →
      Token.splitAt? c (s ++ mark ++ t).toList = some (s.toList, t.toList) := by
    intro s t hs
    rw [String.toList_append, String.toList_append, hm, List.append_assoc]
    exact Token.splitAt?_append hs
  have hp := hparts (t := t) hs
  rw [h, hparts hs', Option.some.injEq, Prod.mk.injEq, String.toList_inj, String.toList_inj] at hp
  exact ⟨hp.1.symm, hp.2.symm⟩

namespace Numeral

/-! ### The parts of a numeral -/

/-- The digits of a decimal numeral: a whole part, and perhaps a fraction behind a point and an
exponent behind an `e`. -/
structure Parts where
  whole : List Char
  fraction : Option (List Char)
  exponent : Option (List Char)
  whole_ne : whole ≠ []
  isDigit_whole : ∀ c ∈ whole, isDigit c = true
  isDigit_fraction : ∀ ds ∈ fraction, ∀ c ∈ ds, isDigit c = true
  exponent_ne : ∀ ds ∈ exponent, ds ≠ []
  isDigit_exponent : ∀ ds ∈ exponent, ∀ c ∈ ds, isDigit c = true

/-- A power of ten with a name. -/
inductive Magnitude where
  | eth | gwei

/-- The name of a unit. -/
def Magnitude.name : Magnitude → Token
  | .eth  => "ETH"
  | .gwei => "GWEI"

/-- The power of ten that a unit stands for. -/
def Magnitude.exponent : Magnitude → Nat
  | .eth  => 18
  | .gwei => 9

/-- Where the unit of a numeral stands, if it has one. -/
inductive Suffix where
  | none
  | attached (m : Magnitude)
  | apart (m : Magnitude)

/-- The power of ten of the unit, or zero. -/
def Suffix.exponent : Suffix → Nat
  | .none                    => 0
  | .attached m | .apart m => m.exponent

/-- The unit is a token of its own. -/
def Suffix.isApart : Suffix → Bool
  | .apart _ => true
  | _        => false

namespace Parts

/-- The characters before the exponent. -/
def mantissa (p : Parts) : List Char :=
  p.whole ++ (p.fraction.map ('.' :: ·)).getD []

/-- The numeral without a unit. -/
def body (p : Parts) : List Char :=
  p.mantissa ++ (p.exponent.map ('e' :: ·)).getD []

/-- The digits of the mantissa. -/
def digits (p : Parts) : List Char :=
  p.whole ++ p.fraction.getD []

/-- How many digits stand behind the point. -/
def places (p : Parts) : Nat :=
  (p.fraction.getD []).length

/-- The number that the exponent writes. -/
def power (p : Parts) : Nat :=
  Nat.ofDigitChars 10 (p.exponent.getD []) 0

/-- The tokens of the numeral with its unit. -/
def tokens (p : Parts) : Suffix → List Token
  | .none       => [String.ofList p.body]
  | .attached m => [String.ofList (p.body ++ m.name.toList)]
  | .apart m    => [String.ofList p.body, m.name]

/-- The digits, times ten to the power of exponent and unit less the places behind the point, are
`n`. -/
def Amounts (p : Parts) (unit n : Nat) : Prop :=
  n * 10 ^ p.places = Nat.ofDigitChars 10 p.digits 0 * 10 ^ (p.power + unit)

/-- The numeral with its unit amounts to `v`. -/
def Denotes (p : Parts) (s : Suffix) (v : UInt256) : Prop :=
  p.Amounts s.exponent v.toNat

variable (p : Parts)

theorem isDigit_digits : ∀ c ∈ p.digits, isDigit c = true := by
  intro c hc
  rcases List.mem_append.mp hc with hc | hc
  · exact p.isDigit_whole c hc
  · cases hf : p.fraction with
    | none => rw [hf] at hc; cases hc
    | some ds => rw [hf] at hc; exact p.isDigit_fraction ds hf c hc

theorem places_le : p.places ≤ p.digits.length := by
  rw [places, digits, List.length_append]
  exact Nat.le_add_left _ _

/-- The mantissa holds digits and perhaps a point. -/
theorem mem_mantissa {c : Char} (hc : c ∈ p.mantissa) : isDigit c = true ∨ c = '.' := by
  rcases List.mem_append.mp hc with hc | hc
  · exact .inl (p.isDigit_whole c hc)
  · cases hf : p.fraction with
    | none => rw [hf] at hc; cases hc
    | some ds =>
      rw [hf] at hc
      rcases List.mem_cons.mp hc with rfl | hc
      · exact .inr rfl
      · exact .inl (p.isDigit_fraction ds hf c hc)

/-- A numeral has digits, a point and an exponent marker. -/
theorem mem_body {c : Char} (hc : c ∈ p.body) : isDigit c = true ∨ c = '.' ∨ c = 'e' := by
  rcases List.mem_append.mp hc with hc | hc
  · exact (p.mem_mantissa hc).imp_right .inl
  · cases he : p.exponent with
    | none => rw [he] at hc; cases hc
    | some ds =>
      rw [he] at hc
      rcases List.mem_cons.mp hc with rfl | hc
      · exact .inr (.inr rfl)
      · exact .inl (p.isDigit_exponent ds he c hc)

theorem not_mem_body {c : Char} (hd : isDigit c = false) (hc : c ≠ '.' ∧ c ≠ 'e') :
    c ∉ p.body := by
  intro hm
  rcases p.mem_body hm with h | h | h
  · exact isDigit_ne h hd rfl
  · exact hc.1 h
  · exact hc.2 h

/-- A numeral is split at its exponent marker. -/
theorem splitExponent_body : splitExponent p.body = .ok (p.mantissa, p.exponent) := by
  have hE : p.body.contains 'E' = false := by
    rw [← Bool.not_eq_true, List.contains_iff_mem]
    exact p.not_mem_body (by decide) (by decide)
  have he : 'e' ∉ p.mantissa := by
    intro hm
    rcases p.mem_mantissa hm with h | h
    · exact absurd h (by decide)
    · cases h
  rw [splitExponent, hE, if_neg Bool.false_ne_true, body]
  cases hx : p.exponent with
  | none => simp [Token.splitAt?_of_not_mem he]
  | some ds =>
    have hds : 'e' ∉ ds := not_mem_of_isDigit (p.isDigit_exponent ds hx) (by decide)
    simp [Token.splitAt?_append he, hds]

/-- The mantissa is split at its point. -/
theorem splitAt?_mantissa :
    (Token.splitAt? '.' p.mantissa).getD (p.mantissa, []) = (p.whole, p.fraction.getD []) := by
  have hw : '.' ∉ p.whole := not_mem_of_isDigit p.isDigit_whole (by decide)
  rw [mantissa]
  cases p.fraction with
  | none => simp [Token.splitAt?_of_not_mem hw]
  | some ds => simp [Token.splitAt?_append hw]

/-- An exponent is read if it is below `2 ^ 64`. -/
theorem readExponent_eq :
    readExponent p.exponent = if p.power < UInt64.size then .ok p.power else .error .overflow := by
  rw [power]
  cases hx : p.exponent with
  | none => rfl
  | some ds =>
    rw [readExponent, natOfDigits?_of_isDigit (p.exponent_ne ds hx) (p.isDigit_exponent ds hx)]
    rfl

end Parts

/-! ### Scaling -/

/-- A number, if it is in range. -/
def narrow (n : Nat) : Except NumeralFault UInt256 :=
  match UInt256.ofNat? n with
  | some v => .ok v
  | none   => .error .overflow

theorem narrow_toNat (v : UInt256) : narrow v.toNat = .ok v := by
  rw [narrow, UInt256.ofNat?_of_lt v.toNat_lt]

theorem narrow_of_le {n : Nat} (h : UInt256.size ≤ n) : narrow n = .error .overflow := by
  rw [narrow, UInt256.ofNat?_of_le h]

/-- Digits times a power of ten. -/
theorem scaled_natCast (ds : List Char) (k : Nat) :
    scaled ds k = narrow (Nat.ofDigitChars 10 ds 0 * 10 ^ k) := by
  have hkeep : ds.length - (-(k : Int)).toNat = ds.length := by omega
  rw [scaled, hkeep, List.drop_length, List.take_length, List.any_nil, if_neg Bool.false_ne_true]
  generalize Nat.ofDigitChars 10 ds 0 = n
  by_cases hn : n < UInt256.size
  · rw [UInt256.ofNat?_of_lt hn]
    dsimp only
    -- zero times a power of ten is in range even where the power is not, so none is worked out
    by_cases hz : k = 0 ∨ n = 0
    · have hc : (decide ((k : Int) ≤ 0) || UInt256.isZero ⟨n, hn⟩) = true := by
        rcases hz with rfl | rfl <;> simp [UInt256.isZero]
      have hprod : n * 10 ^ k = n := by rcases hz with rfl | rfl <;> simp
      rw [if_pos hc, hprod]
      exact (narrow_toNat ⟨n, hn⟩).symm
    · obtain ⟨hk, hn₀⟩ := not_or.mp hz
      have hc : ¬ (decide ((k : Int) ≤ 0) || UInt256.isZero ⟨n, hn⟩) = true := by
        simp [UInt256.isZero, hk, hn₀]
      rw [if_neg hc, Int.toNat_natCast, UInt256.pow10?_bind_mul? hn₀]
      rfl
  · have hle := Nat.le_of_not_lt hn
    have hpos : 0 < 10 ^ k := Nat.pow_pos (by decide)
    rw [UInt256.ofNat?_of_le hle, narrow_of_le (hle.trans (Nat.le_mul_of_pos_right n hpos))]

/-- Digits divided by a power of ten: the last of them go, and have to be zeros. -/
theorem scaled_neg {ds : List Char} (hd : ∀ c ∈ ds, isDigit c = true) {k : Nat}
    (hk : k ≤ ds.length) :
    scaled ds (-(k : Int)) =
      if 10 ^ k ∣ Nat.ofDigitChars 10 ds 0 then narrow (Nat.ofDigitChars 10 ds 0 / 10 ^ k)
      else .error .fractionalResult := by
  have hkeep : ds.length - (-(-(k : Int))).toNat = ds.length - k := by omega
  have hlen : (ds.drop (ds.length - k)).length = k := by
    rw [List.length_drop]
    omega
  have hdrop : ∀ c ∈ ds.drop (ds.length - k), isDigit c = true :=
    fun c hc => hd c (List.mem_of_mem_drop hc)
  -- the digits that stay, shifted, and those that go
  have hsum : Nat.ofDigitChars 10 ds 0 = 10 ^ k * Nat.ofDigitChars 10 (ds.take (ds.length - k)) 0
      + Nat.ofDigitChars 10 (ds.drop (ds.length - k)) 0 := by
    nth_rewrite 1 [← List.take_append_drop (ds.length - k) ds]
    rw [Nat.ofDigitChars_append, Nat.ofDigitChars_eq_ofDigitChars_zero, hlen]
  have hlt := ofDigitChars_lt hdrop
  rw [hlen] at hlt
  have hany : (ds.drop (ds.length - k)).any (· != '0') = true ↔
      Nat.ofDigitChars 10 (ds.drop (ds.length - k)) 0 ≠ 0 := by
    rw [ne_eq, ofDigitChars_eq_zero_iff hdrop]
    simp
  rw [scaled, hkeep, hsum]
  generalize Nat.ofDigitChars 10 (ds.drop (ds.length - k)) 0 = low at hlt hany
  -- those that go come to less than one unit of what is left
  have hdvd : 10 ^ k ∣ 10 ^ k * Nat.ofDigitChars 10 (ds.take (ds.length - k)) 0 + low ↔
      low = 0 := by
    rw [Nat.dvd_add_right (Nat.dvd_mul_right _ _)]
    exact ⟨fun h => Nat.eq_zero_of_dvd_of_lt h hlt, fun h => h ▸ Nat.dvd_zero _⟩
  by_cases hlow : low = 0
  · rw [if_neg (fun h => hany.mp h hlow), if_pos (hdvd.mpr hlow), hlow, Nat.add_zero,
      Nat.mul_div_cancel_left _ (Nat.pow_pos (by decide)), narrow]
    cases UInt256.ofNat? (Nat.ofDigitChars 10 (ds.take (ds.length - k)) 0) with
    | none => rfl
    | some m => exact if_pos (by simp)
  · rw [if_pos (hany.mpr hlow), if_neg (mt hdvd.mp hlow)]

/-- Digits times one power of ten and divided by another. -/
theorem scaled_sub {ds : List Char} (hd : ∀ c ∈ ds, isDigit c = true) {k : Nat}
    (hk : k ≤ ds.length) (a : Nat) :
    scaled ds ((a : Int) - k) =
      if 10 ^ k ∣ Nat.ofDigitChars 10 ds 0 * 10 ^ a then
        narrow (Nat.ofDigitChars 10 ds 0 * 10 ^ a / 10 ^ k)
      else .error .fractionalResult := by
  have hpos (j : Nat) : 0 < 10 ^ j := Nat.pow_pos (by decide)
  -- either zeros are put behind the digits or some of them are taken off
  rcases Nat.le_total k a with hle | hle
  · obtain ⟨j, rfl⟩ := Nat.le.dest hle
    have hint : ((k + j : Nat) : Int) - k = (j : Int) := by omega
    rw [hint, scaled_natCast, pow_add, Nat.mul_left_comm, if_pos (Nat.dvd_mul_right _ _),
      Nat.mul_div_cancel_left _ (hpos k)]
  · obtain ⟨j, rfl⟩ := Nat.le.dest hle
    have hint : (a : Int) - ((a + j : Nat) : Int) = -(j : Int) := by omega
    rw [hint, scaled_neg hd (Nat.le_of_add_left_le hk), pow_add, Nat.mul_comm (10 ^ a),
      Nat.mul_div_mul_right _ _ (hpos a)]
    simp only [Nat.mul_dvd_mul_iff_right (hpos a)]

/-- The value of a numeral: its exponent has to be in range, and the digits a multiple of what they
are divided by. -/
theorem value_body_eq (p : Parts) (unit : Nat) :
    value p.body unit =
      if p.power < UInt64.size then
        if 10 ^ p.places ∣ Nat.ofDigitChars 10 p.digits 0 * 10 ^ (p.power + unit) then
          narrow (Nat.ofDigitChars 10 p.digits 0 * 10 ^ (p.power + unit) / 10 ^ p.places)
        else .error .fractionalResult
      else .error .overflow := by
  have hwhole : p.whole.isEmpty = false := by
    simp [p.whole_ne]
  have hall : p.whole.all isDigit = true := List.all_eq_true.mpr p.isDigit_whole
  have hfrac : (p.fraction.getD []).all isDigit = true := by
    rw [List.all_eq_true]
    intro c hc
    exact p.isDigit_digits c (List.mem_append_right _ hc)
  simp only [value, p.splitExponent_body, bind, Except.bind, p.splitAt?_mantissa, hwhole, hall,
    hfrac, p.readExponent_eq]
  by_cases hx : p.power < UInt64.size
  · rw [if_pos hx, if_pos hx, ← scaled_sub p.isDigit_digits p.places_le, Int.natCast_add]
    rfl
  · rw [if_neg hx, if_neg hx]
    rfl

/-- A numeral that amounts to a whole number has it as its value, if it is in range. -/
theorem Parts.Amounts.value_eq {p : Parts} {unit n : Nat} (h : p.Amounts unit n)
    (hx : p.power < UInt64.size) : value p.body unit = narrow n := by
  rw [Parts.Amounts] at h
  rw [value_body_eq, if_pos hx, ← h, if_pos (Nat.dvd_mul_left _ _),
    Nat.mul_div_cancel _ (Nat.pow_pos (by decide))]

/-! ### Units -/

/-- The name of a unit is read as its exponent. -/
theorem unitExponent?_name (m : Magnitude) : unitExponent? m.name = some m.exponent := by
  cases m <;> decide

/-- No other token is a unit. -/
theorem unitExponent?_of_ne {t : Token} (h : ∀ m : Magnitude, t ≠ m.name) :
    unitExponent? t = none := by
  have heth : ("ETH" == t) = false := beq_false_of_ne (h .eth).symm
  have hgwei : ("GWEI" == t) = false := beq_false_of_ne (h .gwei).symm
  rw [unitExponent?, units, List.find?_cons, heth, List.find?_cons, hgwei]
  rfl

/-- A token that starts with a digit is not a unit. -/
theorem unitExponent?_of_isNumeric {t : Token} (h : Token.isNumeric t = true) :
    unitExponent? t = none := by
  refine unitExponent?_of_ne ?_
  rintro m rfl
  cases m <;> exact absurd h (by decide)

/-- No list ends in two units. -/
theorem splitUnit_append (body : List Char) (m : Magnitude) :
    splitUnit (body ++ m.name.toList) = (body, some m.exponent) := by
  cases m with
  | eth =>
    rw [splitUnit, units, Magnitude.name]
    simp only [List.findSome?, Token.dropEnding?_append]
    rfl
  | gwei =>
    have heth : Token.dropEnding? "ETH".toList (body ++ "GWEI".toList) = none := by
      refine Token.dropEnding?_of_getLast? (by decide) ?_
      rw [List.getLast?_append, show "GWEI".toList.getLast? = some 'I' by decide, Option.some_or]
      decide
    rw [splitUnit, units, Magnitude.name]
    simp only [List.findSome?, heth, Token.dropEnding?_append, Option.map_none]
    rfl

/-- A token that ends in no unit is all numeral. -/
theorem splitUnit_of_not_suffix {cs : List Char} (h : ∀ m : Magnitude, ¬ m.name.toList <:+ cs) :
    splitUnit cs = (cs, none) := by
  have heth : Token.dropEnding? "ETH".toList cs = none := Token.dropEnding?_of_not_suffix (h .eth)
  have hgwei : Token.dropEnding? "GWEI".toList cs = none :=
    Token.dropEnding?_of_not_suffix (h .gwei)
  rw [splitUnit, units]
  simp only [List.findSome?, heth, hgwei, Option.map_none, Option.getD_none]

/-- The unit of a numeral is the one attached to it, or else the token that follows. -/
inductive Splits (cs : List Char) (next : Option Token) : List Char → Suffix → Prop where
  | attached {body : List Char} {m : Magnitude} (h : cs = body ++ m.name.toList) :
      Splits cs next body (.attached m)
  | apart {m : Magnitude} (h : ∀ m : Magnitude, ¬ m.name.toList <:+ cs)
      (hn : next = some m.name) : Splits cs next cs (.apart m)
  | plain (h : ∀ m : Magnitude, ¬ m.name.toList <:+ cs)
      (hn : ∀ m : Magnitude, next ≠ some m.name) : Splits cs next cs .none

/-! ### Canonical numerals -/

/-- A decimal numeral stands for its value, scaled by its unit. -/
theorem Splits.canonical {t : Token} {next : Option Token} {body : List Char} {s : Suffix}
    (h : Splits t.toList next body s) (hnum : Token.isNumeric t = true)
    (hhex : isHexadecimal t = false) :
    canonical t next = match value body s.exponent with
      | .ok v    => .ok (v.toDecimal, s.isApart)
      | .error f => .error (.malformedNumber t f) := by
  rw [Numeral.canonical, hnum, hhex]
  cases h with
  | attached h =>
    rw [h, splitUnit_append]
    rfl
  | apart h hn =>
    rw [splitUnit_of_not_suffix h, hn]
    simp only [Option.isSome_none, Bool.false_eq_true, if_false, Option.bind_some,
      unitExponent?_name]
    rfl
  | plain h hn =>
    have hnext : next.bind unitExponent? = none := by
      cases next with
      | none => rfl
      | some n => exact unitExponent?_of_ne fun m hm => hn m (congrArg some hm)
    rw [splitUnit_of_not_suffix h, hnext]
    rfl

/-- A token is replaced together with the unit behind it, if it uses one. -/
theorem normalize_cons_eq (t : Token) (r : List Token) :
    normalize (t :: r) = do
      let (u, usedNext) ← canonical t r.head?
      let us ← normalize (if usedNext then r.tail else r)
      return u :: us := by
  cases r with
  | nil =>
    rw [normalize, List.head?_nil, List.tail_nil]
    simp only [ite_self]
    rfl
  | cons n r =>
    rw [normalize, List.head?_cons, List.tail_cons]
    refine bind_congr fun c => ?_
    obtain ⟨u, _ | _⟩ := c <;> rfl

theorem normalize_cons {t u : Token} {r : List Token} (h : canonical t r.head? = .ok (u, false)) :
    normalize (t :: r) = (normalize r).map (u :: ·) := by
  rw [normalize_cons_eq, h]
  show (normalize r).bind _ = _
  cases normalize r <;> rfl

theorem normalize_cons_unit {t u n : Token} {r : List Token}
    (h : canonical t (some n) = .ok (u, true)) :
    normalize (t :: n :: r) = (normalize r).map (u :: ·) := by
  rw [normalize_cons_eq, List.head?_cons, h]
  show (normalize r).bind _ = _
  cases normalize r <;> rfl

/-- A token that is not numeric stays. -/
theorem normalize_of_not_numeric {t : Token} (h : Token.isNumeric t = false) (r : List Token) :
    normalize (t :: r) = (normalize r).map (t :: ·) := by
  refine normalize_cons ?_
  rw [canonical, h]
  rfl

namespace Parts

variable (p : Parts)

/-- A numeral without its unit does not end in one. -/
theorem not_suffix_body (m : Magnitude) : ¬ m.name.toList <:+ p.body := by
  intro hs
  cases m with
  | eth => exact p.not_mem_body (by decide) (by decide) (hs.subset (show 'H' ∈ _ by decide))
  | gwei => exact p.not_mem_body (by decide) (by decide) (hs.subset (show 'I' ∈ _ by decide))

/-- A token that starts with a numeral is numeric. -/
theorem isNumeric_body (tail : List Char) :
    Token.isNumeric (String.ofList (p.body ++ tail)) = true := by
  obtain ⟨c, cs, hw⟩ := List.exists_cons_of_ne_nil p.whole_ne
  have hc : isDigit c = true := p.isDigit_whole c (hw ▸ .head _)
  rw [body, mantissa, hw, Token.isNumeric, String.toList_ofList]
  exact hc

/-- A decimal numeral is no hexadecimal one. -/
theorem isHexadecimal_body {tail : List Char} (h : 'x' ∉ tail ∧ 'X' ∉ tail) :
    isHexadecimal (String.ofList (p.body ++ tail)) = false := by
  rw [isHexadecimal, String.toList_ofList, Hex.digits?_of_not_mem ⟨fun hx => ?_, fun hx => ?_⟩]
  · rfl
  · rcases List.mem_append.mp hx with hx | hx
    · exact p.not_mem_body (by decide) (by decide) hx
    · exact h.1 hx
  · rcases List.mem_append.mp hx with hx | hx
    · exact p.not_mem_body (by decide) (by decide) hx
    · exact h.2 hx

/-- A decimal numeral and its unit are replaced by the plain digits of what they denote, unless a
token that follows reads as a unit. -/
theorem normalize_tokens {s : Suffix} {v : UInt256} (hx : p.power < UInt64.size)
    (h : p.Denotes s v) {r : List Token} (hr : r.head?.bind unitExponent? = none) :
    normalize (p.tokens s ++ r) = (normalize r).map (v.toDecimal :: ·) := by
  have hv : value p.body s.exponent = .ok v := by
    rw [Amounts.value_eq h hx, narrow_toNat]
  have hnum := p.isNumeric_body []
  have hhex := p.isHexadecimal_body ⟨List.not_mem_nil, List.not_mem_nil⟩
  rw [List.append_nil] at hnum hhex
  cases s with
  | none =>
    have hs : Splits (String.ofList p.body).toList r.head? p.body .none := by
      rw [String.toList_ofList]
      refine .plain p.not_suffix_body fun m hm => ?_
      rw [hm, Option.bind_some, unitExponent?_name] at hr
      cases hr
    have hc := hs.canonical hnum hhex
    rw [hv] at hc
    exact normalize_cons hc
  | attached m =>
    have hm : 'x' ∉ m.name.toList ∧ 'X' ∉ m.name.toList := by cases m <;> decide
    have hs : Splits (String.ofList (p.body ++ m.name.toList)).toList r.head? p.body
        (.attached m) := .attached String.toList_ofList
    have hc := hs.canonical (p.isNumeric_body _) (p.isHexadecimal_body hm)
    rw [hv] at hc
    exact normalize_cons hc
  | apart m =>
    have hs : Splits (String.ofList p.body).toList (some m.name) p.body (.apart m) := by
      rw [String.toList_ofList]
      exact .apart p.not_suffix_body rfl
    have hc := hs.canonical hnum hhex
    rw [hv] at hc
    exact normalize_cons_unit hc

end Parts

end Numeral

/-! ### Hexadecimal numerals -/

namespace Hex

/-- The digit of a number below sixteen, in either case. -/
def IsDigitOf (c : Char) (n : Nat) : Prop :=
  "0123456789abcdef".toList[n]? = some c ∨ "0123456789ABCDEF".toList[n]? = some c

/-- Two digits for each byte, the high half first. -/
inductive Writes : List Char → List UInt8 → Prop where
  | nil : Writes [] []
  | cons {h l : Char} {high low : Nat} {b : UInt8} {cs : List Char} {bs : List UInt8}
      (hh : IsDigitOf h high) (hl : IsDigitOf l low) (hb : b.toNat = 16 * high + low)
      (hw : Writes cs bs) : Writes (h :: l :: cs) (b :: bs)

/-- A token of `0x` or `0X` and the digits of some bytes. -/
def IsNumeralOf (t : Token) (bs : List UInt8) : Prop :=
  ∃ x cs, (x = 'x' ∨ x = 'X') ∧ t = String.ofList ('0' :: x :: cs) ∧ Writes cs bs

variable {c : Char} {n : Nat} {cs : List Char} {bs : List UInt8} {t : Token}

theorem digit?_of_isDigitOf (h : IsDigitOf c n) : digit? c = some n := by
  have hlower : ∀ n < 16, "0123456789abcdef".toList[n]?.bind digit? = some n := by decide
  have hupper : ∀ n < 16, "0123456789ABCDEF".toList[n]?.bind digit? = some n := by decide
  rcases h with h | h
  · have hn : n < 16 := (List.getElem?_eq_some_iff.mp h).1
    have hd := hlower n hn
    rwa [h] at hd
  · have hn : n < 16 := (List.getElem?_eq_some_iff.mp h).1
    have hd := hupper n hn
    rwa [h] at hd

/-- Digits that write bytes are decoded to them. -/
theorem Writes.decode (h : Writes cs bs) : decode cs = some bs := by
  induction h with
  | nil => rfl
  | @cons h l high low b cs bs hh hl hb _ ih =>
    have hbyte : UInt8.ofNat (high * 16 + low) = b := by
      rw [Nat.mul_comm, ← hb, UInt8.ofNat_toNat]
    rw [Hex.decode, digit?_of_isDigitOf hh, digit?_of_isDigitOf hl, ih]
    exact congrArg (fun b => some (b :: bs)) hbyte

/-- Each byte is written with two digits. -/
theorem Writes.length_eq (h : Writes cs bs) : cs.length = 2 * bs.length := by
  induction h with
  | nil => rfl
  | cons _ _ _ _ ih =>
    rw [List.length_cons, List.length_cons, List.length_cons, ih]
    rfl

theorem Writes.all_digits (h : Writes cs bs) : cs.all (fun c => (digit? c).isSome) = true := by
  induction h with
  | nil => rfl
  | cons hh hl _ _ ih =>
    rw [List.all_cons, List.all_cons, digit?_of_isDigitOf hh, digit?_of_isDigitOf hl, ih]
    rfl

theorem IsNumeralOf.digits? (h : IsNumeralOf t bs) :
    ∃ cs, digits? t.toList = some cs ∧ Writes cs bs := by
  obtain ⟨x, cs, hx, rfl, hw⟩ := h
  refine ⟨cs, ?_, hw⟩
  rw [String.toList_ofList]
  exact if_pos hx

/-- A hexadecimal numeral is a numeric token. -/
theorem IsNumeralOf.isNumeric (h : IsNumeralOf t bs) : Token.isNumeric t = true := by
  obtain ⟨x, cs, -, rfl, -⟩ := h
  rw [Token.isNumeric, String.toList_ofList]
  rfl

theorem IsNumeralOf.not_mem {c : Char} (h : IsNumeralOf t bs) (hc : digit? c = none)
    (hx : c ≠ 'x' ∧ c ≠ 'X') : c ∉ t.toList := by
  obtain ⟨x, cs, hx', rfl, hw⟩ := h
  rw [String.toList_ofList]
  intro hm
  rcases List.mem_cons.mp hm with rfl | hm
  · exact absurd hc (by decide)
  rcases List.mem_cons.mp hm with rfl | hm
  · exact hx'.elim hx.1 hx.2
  · have hd := List.all_eq_true.mp hw.all_digits c hm
    rw [hc] at hd
    cases hd

/-- The digits of an account or a word are read back. -/
theorem IsNumeralOf.ofHex? {n : Nat} {a : Octets n} (h : IsNumeralOf t a.bytes) :
    Octets.ofHex? t = some a := by
  obtain ⟨cs, hd, hw⟩ := h.digits?
  rw [Octets.ofHex?, hd, Option.bind_some, hw.decode, Option.bind_some]
  exact dif_pos a.length_bytes

/-- A hexadecimal numeral of the length of an account or a word stays as it is. -/
theorem IsNumeralOf.canonical (h : IsNumeralOf t bs) (hl : bs.length = 20 ∨ bs.length = 32)
    (next : Option Token) : Numeral.canonical t next = .ok (t, false) := by
  obtain ⟨cs, hd, hw⟩ := h.digits?
  have hlen : (cs.length == 40 || cs.length == 64) = true := by
    rw [hw.length_eq]
    rcases hl with hl | hl <;> rw [hl] <;> rfl
  have hlit : Numeral.isHexLiteral t = true := by
    rw [Numeral.isHexLiteral, hd]
    simp only [hw.all_digits, hlen, Bool.and_self]
  have hhex : Numeral.isHexadecimal t = true := by rw [Numeral.isHexadecimal, hd]; rfl
  rw [Numeral.canonical, h.isNumeric, hhex, hlit]
  rfl

end Hex

end Proviso
