import Mathlib.Control.Monad.Basic
import Proviso.Proofs.Atoms

/-!
# Numerals, accepted and refused

What becomes of a token that starts with a digit, for every such token. A decimal numeral stands for
its digits times a power of ten, exactly: it is accepted if it has the form of one and that is an
integer in range, and is otherwise refused for the first fault that applies. A hexadecimal one is
accepted if it has the digits of an account or a word.

Main statement: wherever a numeral stands among other tokens, its outcome decides what becomes of it
and whether the token behind it goes with it, and the assembler reads the token that stands for it
as the value it means (`Numeral.normalize_numeral`).
-/

namespace Proviso

/-! ### Hexadecimal digits -/

namespace Hex

/-- The token is `0x` or `0X` with the characters `ds` behind it. -/
def Marks (t : Token) (ds : List Char) : Prop :=
  ∃ x, (x = 'x' ∨ x = 'X') ∧ t.toList = '0' :: x :: ds

/-- The digits of an account or a word. -/
def IsLiteral (ds : List Char) : Prop :=
  (∀ c ∈ ds, ∃ n, IsDigitOf c n) ∧ (ds.length = 40 ∨ ds.length = 64)

variable {c : Char} {n : Nat} {ds : List Char} {bs : List UInt8} {t : Token}

/-- The digits behind the mark are those of a marked literal. -/
theorem digits?_eq_some_iff : digits? t.toList = some ds ↔ Marks t ds := by
  rw [Marks]
  unfold digits?
  split
  · next x r heq => grind
  · next hne => grind

theorem isDigitOf_of_digit? (h : digit? c = some n) : IsDigitOf c n := by
  have hall : ∀ k < 128, ∀ n ∈ digit? (Char.ofNat k),
      "0123456789abcdef".toList[n]? = some (Char.ofNat k) ∨
        "0123456789ABCDEF".toList[n]? = some (Char.ofNat k) := by decide +kernel
  have hlt : c.toNat < 128 := by
    by_contra hge
    have hgt : ∀ d : Char, d.toNat < 128 → ¬ c ≤ d := fun d hd hle =>
      hge (Nat.lt_of_le_of_lt (UInt32.le_iff_toNat_le.mp (Char.le_def.mp hle)) hd)
    simp [digit?, hgt] at h
  have hc := hall c.toNat hlt n
  rw [Char.ofNat_toNat] at hc
  exact hc h

/-- A character with a digit value is a hexadecimal digit. -/
theorem isSome_digit?_iff : (digit? c).isSome = true ↔ ∃ n, IsDigitOf c n := by
  rw [Option.isSome_iff_exists]
  exact exists_congr fun n => ⟨isDigitOf_of_digit?, digit?_of_isDigitOf⟩

theorem IsDigitOf.lt (h : IsDigitOf c n) : n < 16 := by
  rcases h with h | h <;> exact (List.getElem?_eq_some_iff.mp h).1

/-- Digits in pairs write some bytes. -/
theorem exists_writes {k : Nat} (hlen : ds.length = 2 * k) (h : ∀ c ∈ ds, ∃ n, IsDigitOf c n) :
    ∃ bs : List UInt8, bs.length = k ∧ Writes ds bs := by
  induction k generalizing ds with
  | zero =>
    obtain rfl : ds = [] := List.eq_nil_of_length_eq_zero hlen
    exact ⟨[], rfl, .nil⟩
  | succ k ih =>
    match ds, hlen with
    | a :: b :: ds, hlen =>
      obtain ⟨ha, h⟩ := List.forall_mem_cons.mp h
      obtain ⟨hb, h⟩ := List.forall_mem_cons.mp h
      obtain ⟨high, ha⟩ := ha
      obtain ⟨low, hb⟩ := hb
      obtain ⟨bs, hbs, hw⟩ := ih (by simpa [Nat.mul_add] using hlen) h
      have hbyte : (UInt8.ofNat (16 * high + low)).toNat = 16 * high + low := by
        have := ha.lt
        have := hb.lt
        exact UInt8.toNat_ofNat_of_lt' (by show _ < 256; omega)
      exact ⟨_ :: bs, congrArg (· + 1) hbs, .cons ha hb hbyte hw⟩

/-- A marked token is a literal by the number and form of its digits. -/
theorem isHexLiteral_iff (h : Marks t ds) : Numeral.isHexLiteral t = true ↔ IsLiteral ds := by
  rw [Numeral.isHexLiteral, digits?_eq_some_iff.mpr h, IsLiteral]
  simp [isSome_digit?_iff]

/-- Forty digits write an account, sixty-four a word. -/
theorem IsLiteral.exists_numeral (hl : IsLiteral ds) (h : Marks t ds) :
    (∃ a : Address, IsNumeralOf t a.bytes) ∨ ∃ w : Word, IsNumeralOf t w.bytes := by
  obtain ⟨hds, hlen⟩ := hl
  obtain ⟨x, hx, ht⟩ := h
  have ht : t = String.ofList ('0' :: x :: ds) := by rw [← ht, String.ofList_toList]
  rcases hlen with hlen | hlen
  · obtain ⟨bs, hbs, hw⟩ := exists_writes (k := 20) hlen hds
    exact .inl ⟨⟨bs, hbs⟩, x, ds, hx, ht, hw⟩
  · obtain ⟨bs, hbs, hw⟩ := exists_writes (k := 32) hlen hds
    exact .inr ⟨⟨bs, hbs⟩, x, ds, hx, ht, hw⟩

/-- A numeral of another length is none of this one. -/
theorem IsNumeralOf.ofHex?_of_ne (h : IsNumeralOf t bs) (hn : bs.length ≠ n) :
    (Octets.ofHex? t : Option (Octets n)) = none := by
  obtain ⟨cs, hd, hw⟩ := h.digits?
  rw [Octets.ofHex?, hd, Option.bind_some, hw.decode, Option.bind_some]
  exact dif_neg hn

end Hex

namespace Literal

variable {t : Token}

/-- Twenty bytes in hexadecimal are an account. -/
theorem ofToken?_account {a : Address} (h : Hex.IsNumeralOf t a.bytes) :
    ofToken? t = some (.account a) := by
  rw [ofToken?, h.ofHex?]

/-- Thirty-two bytes in hexadecimal are a word. -/
theorem ofToken?_word {w : Word} (h : Hex.IsNumeralOf t w.bytes) :
    ofToken? t = some (.word w) := by
  have haccount : (Octets.ofHex? t : Option Address) = none :=
    h.ofHex?_of_ne (by rw [w.length_bytes]; decide)
  rw [ofToken?, haccount, h.ofHex?]

end Literal

namespace Numeral

/-! ### Decimal numerals -/

/-- What a decimal numeral without its unit stands for, times ten to the power of the unit: the
value, or the first fault that applies. -/
inductive Meaning (body : List Char) (unit : Nat) : Except NumeralFault UInt256 → Prop where
  | uppercaseExponent (hE : 'E' ∈ body) : Meaning body unit (.error .uppercaseExponent)
  | multipleExponents (hE : 'E' ∉ body) (he : 1 < body.count 'e') :
      Meaning body unit (.error .multipleExponents)
  | nonDecimal (hE : 'E' ∉ body) (he : body.count 'e' ≤ 1) (hp : ∀ p : Parts, p.body ≠ body) :
      Meaning body unit (.error .nonDecimal)
  | exponentOverflow (p : Parts) (hp : p.body = body) (hx : UInt64.size ≤ p.power) :
      Meaning body unit (.error .overflow)
  | fractionalResult (p : Parts) (hp : p.body = body) (hx : p.power < UInt64.size)
      (h : ∀ n, ¬ p.Amounts unit n) : Meaning body unit (.error .fractionalResult)
  | overflow (p : Parts) (hp : p.body = body) (hx : p.power < UInt64.size) (n : Nat)
      (h : p.Amounts unit n) (hn : UInt256.size ≤ n) : Meaning body unit (.error .overflow)
  | value (p : Parts) (hp : p.body = body) (hx : p.power < UInt64.size) (v : UInt256)
      (h : p.Amounts unit v.toNat) : Meaning body unit (.ok v)

variable {body : List Char} {unit : Nat}

/-- Every body has a meaning with every unit. -/
theorem exists_meaning (body : List Char) (unit : Nat) : ∃ r, Meaning body unit r := by
  by_cases hE : 'E' ∈ body
  · exact ⟨_, .uppercaseExponent hE⟩
  by_cases he : 1 < body.count 'e'
  · exact ⟨_, .multipleExponents hE he⟩
  by_cases hp : ∃ p : Parts, p.body = body
  swap
  · exact ⟨_, .nonDecimal hE (Nat.le_of_not_lt he) (not_exists.mp hp)⟩
  obtain ⟨p, hp⟩ := hp
  by_cases hx : p.power < UInt64.size
  swap
  · exact ⟨_, .exponentOverflow p hp (Nat.le_of_not_lt hx)⟩
  by_cases hn : ∃ n, p.Amounts unit n
  swap
  · exact ⟨_, .fractionalResult p hp hx (not_exists.mp hn)⟩
  obtain ⟨n, hn⟩ := hn
  by_cases hlt : n < UInt256.size
  · exact ⟨_, .value p hp hx ⟨n, hlt⟩ hn⟩
  · exact ⟨_, .overflow p hp hx n hn (Nat.le_of_not_lt hlt)⟩

/-- A numeral is split at its exponent, which has to be the only one. -/
theorem exists_splitExponent (hE : 'E' ∉ body) :
    ∃ (m : List Char) (x? : Option (List Char)), body = m ++ (x?.map ('e' :: ·)).getD [] ∧
      splitExponent body =
        if body.count 'e' ≤ 1 then .ok (m, x?) else .error .multipleExponents := by
  obtain ⟨m, x?, hm, hbody, hsplit⟩ := Token.exists_splitAt? 'e' body
  refine ⟨m, x?, hbody, ?_⟩
  have hE : body.contains 'E' = false := by simpa using hE
  have hm : m.count 'e' = 0 := List.count_eq_zero.mpr hm
  rw [splitExponent, hE, if_neg Bool.false_ne_true, hsplit]
  cases x? with
  | none =>
    have hcount : body.count 'e' = 0 := by simp [hbody, hm]
    rw [if_pos (hcount ▸ Nat.zero_le 1)]
    simp [hbody]
  | some x =>
    have hcount : body.count 'e' = x.count 'e' + 1 := by simp [hbody, hm]
    by_cases hx : 'e' ∈ x
    · have hpos : 0 < x.count 'e' := List.count_pos_iff.mpr hx
      rw [if_neg (by omega)]
      simp [hx]
    · have hzero : x.count 'e' = 0 := List.count_eq_zero.mpr hx
      rw [if_pos (by omega)]
      simp [hx]

/-- A numeral with at most one exponent either has all the digits it needs or lacks one, whatever
its unit. -/
theorem exists_parts_or_nonDecimal (hE : 'E' ∉ body) (he : body.count 'e' ≤ 1) :
    (∃ p : Parts, p.body = body) ∨ value body unit = .error .nonDecimal := by
  obtain ⟨m, x?, hbody, hexp⟩ := exists_splitExponent hE
  rw [if_pos he] at hexp
  obtain ⟨whole, fraction?, -, hm, hsplit⟩ := Token.exists_splitAt? '.' m
  have hpoint : (Token.splitAt? '.' m).getD (m, []) = (whole, fraction?.getD []) := by
    rw [hsplit]
    cases fraction? with
    | none => simp [hm]
    | some f => rfl
  have hcond : (whole.isEmpty || !whole.all isDigit || !(fraction?.getD []).all isDigit) = false ↔
      whole ≠ [] ∧ (∀ c ∈ whole, isDigit c = true) ∧
        ∀ ds ∈ fraction?, ∀ c ∈ ds, isDigit c = true := by
    cases fraction? <;> simp [and_assoc]
  by_cases hdigits : whole ≠ [] ∧ (∀ c ∈ whole, isDigit c = true) ∧
      ∀ ds ∈ fraction?, ∀ c ∈ ds, isDigit c = true
  swap
  · refine .inr ?_
    simp only [value, hexp, hpoint, bind, Except.bind,
      Bool.eq_true_of_not_eq_false (mt hcond.mp hdigits), if_true]
    rfl
  by_cases hx : ∀ ds ∈ x?, ds ≠ [] ∧ ∀ c ∈ ds, isDigit c = true
  · obtain ⟨hne, hwhole, hfraction⟩ := hdigits
    refine .inl ⟨⟨whole, fraction?, x?, hne, hwhole, hfraction, fun ds h => (hx ds h).1,
      fun ds h => (hx ds h).2⟩, ?_⟩
    rw [Parts.body, Parts.mantissa, hbody, hm]
  · refine .inr ?_
    have hread : readExponent x? = .error .nonDecimal := by
      cases x? with
      | none => exact absurd (by simp) hx
      | some ds =>
        have hnone : natOfDigits? ds = none := if_neg fun h => hx (by simpa using h)
        rw [readExponent, hnone]
    simp only [value, hexp, hpoint, bind, Except.bind, hcond.mpr hdigits, hread]
    rfl

/-- The value that is computed is the one that is meant. -/
theorem Meaning.value_eq {r : Except NumeralFault UInt256} (h : Meaning body unit r) :
    Numeral.value body unit = r := by
  cases h with
  | uppercaseExponent hE =>
    have hE : body.contains 'E' = true := List.contains_iff_mem.mpr hE
    rw [Numeral.value, splitExponent, hE]
    rfl
  | multipleExponents hE he =>
    obtain ⟨m, x?, -, hexp⟩ := exists_splitExponent hE
    rw [Numeral.value, hexp, if_neg (Nat.not_le.mpr he)]
    rfl
  | nonDecimal hE he hp => exact (exists_parts_or_nonDecimal hE he).resolve_left (not_exists.mpr hp)
  | exponentOverflow p hp hx => rw [← hp, value_body_eq, if_neg (Nat.not_lt.mpr hx)]
  | fractionalResult p hp hx h =>
    have hdvd : ¬ 10 ^ p.places ∣ Nat.ofDigitChars 10 p.digits 0 * 10 ^ (p.power + unit) := by
      rintro ⟨n, hn⟩
      exact h n (by rw [Parts.Amounts, hn, Nat.mul_comm])
    rw [← hp, value_body_eq, if_pos hx, if_neg hdvd]
  | overflow p hp hx n h hn => rw [← hp, h.value_eq hx, narrow_of_le hn]
  | value p hp hx v h => rw [← hp, h.value_eq hx, narrow_toNat]

/-! ### Numerals among other tokens -/

/-- Every token is split from its unit in some way. -/
theorem exists_splits (cs : List Char) (next : Option Token) : ∃ body s, Splits cs next body s := by
  by_cases hsuffix : ∃ m : Magnitude, m.name.toList <:+ cs
  · obtain ⟨m, body, rfl⟩ := hsuffix
    exact ⟨body, .attached m, .attached rfl⟩
  by_cases hnext : ∃ m : Magnitude, next = some m.name
  · obtain ⟨m, hm⟩ := hnext
    exact ⟨cs, .apart m, .apart (not_exists.mp hsuffix) hm⟩
  · exact ⟨cs, .none, .plain (not_exists.mp hsuffix) (not_exists.mp hnext)⟩

/-- The tokens left behind a numeral and its unit. -/
def Suffix.rest (s : Suffix) (behind : List Token) : List Token :=
  if s.isApart then behind.tail else behind

/-- What becomes of a numeral with some tokens behind it: the token that stands for it, the literal
that this writes and the tokens that are left; or a fault. -/
inductive Outcome (t : Token) (behind : List Token) :
    Except NumeralFault (Token × Literal × List Token) → Prop where
  | decimal {body : List Char} {s : Suffix} {r : Except NumeralFault UInt256}
      (hx : ∀ ds, ¬ Hex.Marks t ds) (hs : Splits t.toList behind.head? body s)
      (hm : Meaning body s.exponent r) :
      Outcome t behind (r.map fun v => (v.toDecimal, .integer v, s.rest behind))
  | account {a : Address} (h : Hex.IsNumeralOf t a.bytes) :
      Outcome t behind (.ok (t, .account a, behind))
  | word {w : Word} (h : Hex.IsNumeralOf t w.bytes) : Outcome t behind (.ok (t, .word w, behind))
  | hexLiteral {ds : List Char} (hx : Hex.Marks t ds) (h : ¬ Hex.IsLiteral ds) :
      Outcome t behind (.error .hexLiteral)

/-- Every token has an outcome. -/
theorem exists_outcome (t : Token) (behind : List Token) : ∃ r, Outcome t behind r := by
  by_cases hx : ∃ ds, Hex.Marks t ds
  · obtain ⟨ds, hx⟩ := hx
    by_cases hl : Hex.IsLiteral ds
    · rcases hl.exists_numeral hx with ⟨a, ha⟩ | ⟨w, hw⟩
      · exact ⟨_, .account ha⟩
      · exact ⟨_, .word hw⟩
    · exact ⟨_, .hexLiteral hx hl⟩
  · obtain ⟨body, s, hs⟩ := exists_splits t.toList behind.head?
    obtain ⟨r, hr⟩ := exists_meaning body s.exponent
    exact ⟨_, .decimal (not_exists.mp hx) hs hr⟩

variable {t : Token} {behind : List Token} {r : Except NumeralFault (Token × Literal × List Token)}

/-- What is computed for a numeral: its fault, or the token that stands for it, which the assembler
reads as the literal. -/
theorem Outcome.canonical (h : Outcome t behind r) (ht : Token.isNumeric t = true) :
    (∃ f, r = .error f ∧ canonical t behind.head? = .error (.malformedNumber t f)) ∨
    ∃ u l usedNext, r = .ok (u, l, if usedNext then behind.tail else behind) ∧
      canonical t behind.head? = .ok (u, usedNext) ∧ Literal.ofToken? u = some l := by
  cases h with
  | @decimal _ s r hx hs hm =>
    have hhex : isHexadecimal t = false := by
      rw [isHexadecimal, Option.isSome_eq_false_iff, Option.isNone_iff_eq_none,
        Option.eq_none_iff_forall_ne_some]
      exact fun ds hds => hx ds (Hex.digits?_eq_some_iff.mp hds)
    have hc := hs.canonical ht hhex
    rw [hm.value_eq] at hc
    cases r with
    | error f => exact .inl ⟨f, rfl, hc⟩
    | ok v => exact .inr ⟨_, _, s.isApart, rfl, hc, Literal.ofToken?_toDecimal v⟩
  | @account a h =>
    exact .inr ⟨t, _, false, rfl, h.canonical (.inl a.length_bytes) _, Literal.ofToken?_account h⟩
  | @word w h =>
    exact .inr ⟨t, _, false, rfl, h.canonical (.inr w.length_bytes) _, Literal.ofToken?_word h⟩
  | hexLiteral hx hl =>
    have hhex : isHexadecimal t = true := by
      rw [isHexadecimal, Hex.digits?_eq_some_iff.mpr hx]
      rfl
    have hlit : isHexLiteral t = false := by
      rw [← Bool.not_eq_true, Hex.isHexLiteral_iff hx]
      exact hl
    refine .inl ⟨_, rfl, ?_⟩
    rw [Numeral.canonical, ht, hhex, hlit]
    rfl

/-- A numeral has one outcome. -/
theorem Outcome.eq {r' : Except NumeralFault (Token × Literal × List Token)}
    (h : Outcome t behind r) (h' : Outcome t behind r') (ht : Token.isNumeric t = true) :
    r = r' := by
  rcases h.canonical ht with ⟨f, rfl, hc⟩ | ⟨u, l, usedNext, rfl, hc, hl⟩ <;>
    rcases h'.canonical ht with ⟨f', rfl, hc'⟩ | ⟨u', l', usedNext', rfl, hc', hl'⟩ <;>
    rw [hc] at hc' <;> cases hc'
  · rfl
  · -- the literal is the one that the token is read as
    rw [hl] at hl'
    cases hl'
    rfl

/-- A numeral is replaced by what stands for it. -/
theorem Outcome.normalize (h : Outcome t behind r) (ht : Token.isNumeric t = true) :
    normalize (t :: behind) = do
      let (u, _, rest) ← r.mapError (.malformedNumber t)
      let us ← normalize rest
      return u :: us := by
  rw [normalize_cons_eq]
  rcases h.canonical ht with ⟨f, rfl, hc⟩ | ⟨u, l, usedNext, rfl, hc, -⟩ <;> rw [hc] <;> rfl

/-- With no token behind it, a token takes none with it. -/
theorem canonical_none {u : Token} {usedNext : Bool} (h : canonical t none = .ok (u, usedNext)) :
    usedNext = false := by
  unfold canonical at h
  grind

/-- Tokens are replaced on their own up to one that is not a unit. -/
theorem normalize_append {tail : List Token} (h : tail.head?.bind unitExponent? = none) :
    ∀ before, normalize (before ++ tail) = do
      let us ← normalize before
      let vs ← normalize tail
      return us ++ vs
  | [] => by
    rw [List.nil_append]
    cases normalize tail <;> rfl
  | [t] => by
    -- the last token before the cut sees one more token than it does alone, and has no use for it
    have hc : canonical t tail.head? = canonical t none := by
      unfold canonical
      rw [h]
      rfl
    rw [List.singleton_append, normalize_cons_eq, normalize_cons_eq, hc, List.head?_nil]
    cases hn : canonical t none with
    | error e => rfl
    | ok c =>
      obtain ⟨u, usedNext⟩ := c
      cases canonical_none hn
      rfl
  | t :: n :: before => by
    cases hn : canonical t (some n) with
    | error e =>
      rw [List.cons_append, List.cons_append, normalize_cons_eq, normalize_cons_eq t,
        List.head?_cons, List.head?_cons, hn]
      rfl
    | ok c =>
      obtain ⟨u, _ | _⟩ := c
      · have ih := normalize_append h (n :: before)
        rw [List.cons_append, normalize_cons (r := n :: before ++ tail) hn,
          normalize_cons (r := n :: before) hn, ih]
        cases normalize (n :: before) <;> cases normalize tail <;> rfl
      · have ih := normalize_append h before
        rw [List.cons_append, List.cons_append, normalize_cons_unit hn, normalize_cons_unit hn, ih]
        cases normalize before <;> cases normalize tail <;> rfl

/-- **Numerals stand for exactly what they mean.** Every numeral has one outcome, wherever it stands
among other tokens. If the tokens before it are in order, then the numeral is replaced by the token
of its outcome and the rest goes on behind it and its unit, or the whole is refused for its fault.
The assembler reads the token that stands for a numeral back as the literal it means. -/
theorem normalize_numeral {t : Token} (ht : Token.isNumeric t = true)
    (before behind : List Token) :
    ∃ r, Outcome t behind r ∧ (∀ r', Outcome t behind r' → r = r') ∧
      (normalize (before ++ t :: behind) = do
        let us ← normalize before
        let (u, _, rest) ← r.mapError (.malformedNumber t)
        let vs ← normalize rest
        return us ++ u :: vs) ∧
      ∀ u l rest, r = .ok (u, l, rest) → Literal.ofToken? u = some l := by
  obtain ⟨r, h⟩ := exists_outcome t behind
  refine ⟨r, h, fun r' h' => h.eq h' ht, ?_, ?_⟩
  · have hunit : (t :: behind).head?.bind unitExponent? = none := unitExponent?_of_isNumeric ht
    rw [normalize_append hunit, h.normalize ht]
    simp only [bind_assoc, pure_bind]
  · rintro u l rest rfl
    rcases h.canonical ht with ⟨f, hf, -⟩ | ⟨u', l', usedNext, hr, -, hl⟩
    · cases hf
    · cases hr
      exact hl

/-- The unit behind a numeral goes with it. -/
theorem normalize_numeral_of_gwei :
    normalize ["pay", "1.50e1", "GWEI", "BOB"] = .ok ["pay", "15000000000", "BOB"] := by
  let p : Parts := ⟨['1'], some ['5', '0'], some ['1'], by decide, by simp [isDigit],
    by simp [isDigit], by simp, by simp [isDigit]⟩
  have hsplits : Splits "1.50e1".toList (["GWEI", "BOB"] : List Token).head? p.body
      (.apart .gwei) := by
    rw [show "1.50e1".toList = p.body by decide]
    exact .apart p.not_suffix_body rfl
  have hmeaning : Meaning p.body 9 (.ok ⟨15000000000, by decide⟩) :=
    .value p rfl (by decide) _ (by rw [Parts.Amounts]; decide)
  have hmarks : ∀ ds, ¬ Hex.Marks "1.50e1" ds := by
    rintro ds ⟨x, -, hx⟩
    exact absurd hx (by simp)
  have houtcome : Outcome "1.50e1" ["GWEI", "BOB"]
      (.ok ("15000000000", .integer ⟨15000000000, by decide⟩, ["BOB"])) :=
    .decimal hmarks hsplits hmeaning
  obtain ⟨r, -, hunique, hnorm, -⟩ :=
    normalize_numeral (t := "1.50e1") (by decide) ["pay"] ["GWEI", "BOB"]
  cases hunique _ houtcome
  exact hnorm.trans (by decide +kernel)

end Numeral

end Proviso
