import Proviso.Assembly.Block

/-!
# Linking

The blocks of an assembly are laid out one after another, the main block first. A label stands for
the offset of its body. To link, the labels have to be distinct, every branch has to lead to a
body and every body has to be the target of a branch; and every offset has to fit in two bytes.
-/

namespace Proviso.Assembly

/-- All instructions, in the order of the layout. -/
def instrs (a : Assembly) : List (Instr Token) :=
  a.main ++ a.bodies.flatMap (·.2)

/-- Bytes of a list of instructions. -/
def sizeSum (is : List (Instr Token)) : Nat :=
  is.foldr (fun i n => i.size + n) 0

/-- Bytes of the whole program. -/
def size (a : Assembly) : Nat :=
  sizeSum a.instrs

/-- The labels of the bodies, in order. -/
def labels (a : Assembly) : List Token :=
  a.bodies.map (·.1)

/-- The branch targets, in program order. -/
def targets (a : Assembly) : List Token :=
  a.instrs.flatMap Instr.labels

/-- Where each body starts, if the first one starts at `base`. -/
def offsetsFrom (base : Nat) : List (Token × List (Instr Token)) → List (Token × Nat)
  | []              => []
  | (l, body) :: bs => (l, base) :: offsetsFrom (base + sizeSum body) bs

/-- Where each body starts. -/
def offsets (a : Assembly) : List (Token × Nat) :=
  offsetsFrom (sizeSum a.main) a.bodies

/-- The offset of the body with this label. -/
def offsetOf (a : Assembly) (label : Token) : Nat :=
  (a.offsets.lookup label).getD 0

/-- The first element that occurs before, in `seen` or in the list itself. -/
def firstRepeated? (seen : List Token) : List Token → Option Token
  | []     => none
  | l :: r => if seen.contains l then some l else firstRepeated? (l :: seen) r

/-- The largest size at which every offset fits in two bytes. -/
def maxSize : Nat := 65535

/-- What keeps an assembly from being linked. -/
def defect? (a : Assembly) : Option CompileError :=
  match firstRepeated? [] a.labels with
  | some l => some (.duplicateLabel l)
  | none   =>
    if maxSize < a.size then some (.programTooLarge a.size)
    else
      match a.targets.find? fun l => !a.labels.contains l with
      | some l => some (.undefinedLabel l)
      | none   => (a.labels.find? fun l => !a.targets.contains l).map .unreferencedLabel

/-- The bytes of the program. -/
def encode (a : Assembly) : List UInt8 :=
  a.instrs.flatMap fun i => (i.mapLabels a.offsetOf).encode

/-- The bytes of a program that can be linked. -/
def link (a : Assembly) : Except CompileError (List UInt8) :=
  match a.defect? with
  | some e => .error e
  | none   => .ok a.encode

end Proviso.Assembly
