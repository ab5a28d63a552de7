import Proviso.Bytecode

/-!
# Listings

A program as lines of text, one for each instruction: its offset in at least four digits, its
mnemonic, and its operands.
-/

namespace Proviso

/-- A number in decimal with zeros in front, up to `width` characters. -/
def zeroPadded (width n : Nat) : String :=
  let digits := (Nat.repr n).toList
  String.ofList (List.replicate (width - digits.length) '0' ++ digits)

/-- The text of a word, or its digits if it holds none. -/
def textOrHex (w : Word) : String :=
  w.toText?.getD w.toHex

/-- A flag in words. -/
def boolText (b : Bool) : String :=
  if b then "true" else "false"

/-- A stored value as its kind presents it. -/
def renderValue : ValueKind → Word → String
  | .uint256, w           => w.toUInt256.toDecimal
  | .bool, w              => boolText w.toBool
  | .address, w           => w.toAddress.toHex
  | .bytes32, w           => w.toHex
  | .string, w | .struct, w => textOrHex w

/-- A value behind its kind. -/
def renderTagged (k : ValueKind) (w : Word) : String :=
  k.name ++ ":" ++ renderValue k w

/-- A field of a struct as a listing shows it. -/
def Field.render (f : Field) : String :=
  " " ++ f.slot.toHex ++ "=" ++ renderTagged f.kind f.value

/-- An operand with a blank in front. -/
def Operand.render : (k : OperandKind) → Operand Nat k → String
  | .variant, k      => " " ++ k.name
  | .slot,    s      => " " ++ s.toHex
  | .int,     v      => " " ++ v.toDecimal
  | .flag,    b      => " " ++ boolText b
  | .account, a      => " " ++ a.toHex
  | .word,    w      => " " ++ w.toHex
  | .label,   n      => " @" ++ Nat.repr n
  | .name,    w      => " " ++ textOrHex w
  | .value,   (k, w) => " " ++ renderTagged k w
  | .fields,  fs     => " " ++ Nat.repr fs.length ++ String.join (fs.map Field.render)

/-- The operands of an instruction as a listing shows them. -/
def Operands.render : (ps : List Param) → Operands Nat ps → String
  | [],      _       => ""
  | p :: ps, (a, as) => Operand.render p.kind a ++ Operands.render ps as

/-- The line of an instruction at an offset. -/
def Instr.render (offset : Nat) (i : Instr Nat) : String :=
  zeroPadded 4 offset ++ ": " ++ i.opcode.mnemonic ++ Operands.render i.opcode.params i.operands

/-- The lines from an offset on. -/
def listingFrom (code : Array UInt8) (pc : Nat) : Except Fault (List String) :=
  if _h : pc < code.size then
    match _hd : decodeAt Reader.anyOperand code pc with
    | (.error e, _)  => .error e.fault
    | (.ok i, next)  =>
      match listingFrom code next with
      | .error f    => .error f
      | .ok lines   => .ok (i.render pc :: lines)
  else .ok []
termination_by code.size - pc
decreasing_by
  have hb := decodeAt_bounds Reader.anyOperand code _h
  rw [_hd] at hb
  exact Nat.sub_lt_sub_left _h hb.1

/-- The whole program, line by line. -/
def listing (code : Array UInt8) : Except Fault (List String) :=
  listingFrom code 0

end Proviso
