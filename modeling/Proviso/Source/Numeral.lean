import Proviso.Source.Token
import Proviso.UInt256

/-!
# Numerals

A token that starts with a digit is a numeral. A decimal one may have a fraction, an exponent and
a unit, and stands for a whole number; it is replaced by the plain digits of that number. A
hexadecimal one has to be an account or a word, and stays as it is.
-/

namespace Proviso.Numeral

/-- The units, by the power of ten each stands for. -/
def units : List (String × Nat) :=
  [("ETH", 18), ("GWEI", 9)]

/-- The power of ten that a token stands for as a unit. -/
def unitExponent? (t : Token) : Option Nat :=
  (units.find? (·.1 == t)).map (·.2)

/-- A numeral without the unit attached to it, and the power of ten of that unit. -/
def splitUnit (cs : List Char) : List Char × Option Nat :=
  (units.findSome? fun u =>
    (Token.dropEnding? u.1.toList cs).map fun body => (body, some u.2)).getD (cs, none)

/-- Mantissa and exponent of a numeral: no upper-case marker, and at most one marker. -/
def splitExponent (body : List Char) :
    Except NumeralFault (List Char × Option (List Char)) :=
  if body.contains 'E' then .error .uppercaseExponent
  else
    match Token.splitAt? 'e' body with
    | none        => .ok (body, none)
    | some (m, e) => if e.contains 'e' then .error .multipleExponents else .ok (m, some e)

/-- The exponent, below `2 ^ 64`. -/
def readExponent : Option (List Char) → Except NumeralFault Nat
  | none   => .ok 0
  | some e =>
    match natOfDigits? e with
    | none   => .error .nonDecimal
    | some n => if n < UInt64.size then .ok n else .error .overflow

/-- A run of digits scaled by a power of ten: a negative one drops digits, which have to be
zeros. -/
def scaled (digits : List Char) (scale : Int) : Except NumeralFault UInt256 :=
  let keep := digits.length - (-scale).toNat
  if (digits.drop keep).any (· != '0') then .error .fractionalResult
  else
    match UInt256.ofNat? (Nat.ofDigitChars 10 (digits.take keep) 0) with
    | none   => .error .overflow
    | some m =>
      if scale ≤ 0 || m.isZero then .ok m
      else
        match (UInt256.pow10? scale.toNat).bind m.mul? with
        | some v => .ok v
        | none   => .error .overflow

/-- The value of `whole[.fraction][e exponent]`, times ten to the power of the unit. -/
def value (body : List Char) (unit : Nat) : Except NumeralFault UInt256 := do
  let (mantissa, exponent?) ← splitExponent body
  let (whole, fraction) := (Token.splitAt? '.' mantissa).getD (mantissa, [])
  if whole.isEmpty || !whole.all isDigit || !fraction.all isDigit then throw .nonDecimal
  let exponent ← readExponent exponent?
  scaled (whole ++ fraction) ((exponent : Int) + unit - fraction.length)

/-- Whether a token starts as a hexadecimal literal does. -/
def isHexadecimal (t : Token) : Bool :=
  (Hex.digits? t.toList).isSome

/-- Whether a hexadecimal numeral has the forty digits of an account or the sixty-four of a
word. -/
def isHexLiteral (t : Token) : Bool :=
  match Hex.digits? t.toList with
  | none    => false
  | some ds => ds.all (fun c => (Hex.digit? c).isSome) && (ds.length == 40 || ds.length == 64)

/-- What stands for a token, and whether the next token was its unit. -/
def canonical (t : Token) (next : Option Token) : Except CompileError (Token × Bool) :=
  if !Token.isNumeric t then .ok (t, false)
  else if isHexadecimal t then
    if isHexLiteral t then .ok (t, false) else .error (.malformedNumber t .hexLiteral)
  else
    let (body, attached) := splitUnit t.toList
    let following := if attached.isSome then none else next.bind unitExponent?
    match value body ((attached.or following).getD 0) with
    | .ok v    => .ok (v.toDecimal, following.isSome)
    | .error f => .error (.malformedNumber t f)

/-- Replaces every numeral by its canonical form; a unit behind a numeral goes with it. -/
def normalize : List Token → Except CompileError (List Token)
  | []          => .ok []
  | [t]         => do
    let (v, _) ← canonical t none
    return [v]
  | t :: n :: r => do
    let (v, usedNext) ← canonical t (some n)
    let rest ← if usedNext then normalize r else normalize (n :: r)
    return v :: rest

end Proviso.Numeral
