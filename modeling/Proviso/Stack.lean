import Proviso.Act
import Proviso.Fault
import Proviso.Word

/-!
# The operand stack

Typed cells under a limit on their number. A pop that asks for a type consumes the cell also when
the type is wrong; a pop of two operands consumes nothing unless both are there.
-/

namespace Proviso

/-- A value on the stack. -/
inductive Cell where
  | integer (v : UInt256)
  | flag (b : Bool)
  | account (a : Address)
  | word (w : Word)
  | text (s : String)
  deriving DecidableEq

namespace Cell

/-- The name of a type of cells in a fault. -/
def typeName : Cell → String
  | .integer _ => "integer"
  | .flag _    => "flag"
  | .account _ => "account"
  | .word _    => "word"
  | .text _    => "text"

/-- Whether a cell counts as true: everything does but zero, false and the empty text. -/
def isTruthy : Cell → Bool
  | .integer v => !v.isZero
  | .flag b    => b
  | .account a => !a.isZero
  | .word w    => !w.isZero
  | .text s    => s != ""

/-- A cell as it is printed. -/
def render : Cell → String
  | .integer v => v.toDecimal
  | .flag b    => if b then "1" else "0"
  | .account a => a.toHex
  | .word w    => w.toHex
  | .text s    => "\"" ++ s ++ "\""

/-- The fault of an operand of the wrong type. -/
def mismatch (actual : Cell) (op expected : String) : Fault :=
  .typeMismatch op expected actual.typeName

end Cell

/-- The cells, the top one first, and how many there may be. -/
structure Stack where
  cells : List Cell
  limit : Nat

namespace Stack

/-- A stack without cells. -/
def empty (limit : Nat) : Stack := ⟨[], limit⟩

/-- The number of cells. -/
def depth (s : Stack) : Nat := s.cells.length

/-- The cell on top. -/
def top? (s : Stack) : Option Cell := s.cells.head?

/-- The stack without its cells. -/
def clear (s : Stack) : Stack := ⟨[], s.limit⟩

/-- Puts a cell on top, unless the stack is full. -/
def push (c : Cell) : Act Fault Stack Unit := fun s =>
  if s.limit ≤ s.depth then (.error (.stackOverflow s.limit), s)
  else (.ok (), ⟨c :: s.cells, s.limit⟩)

/-- Takes the cell on top; `op` is named if there is none. -/
def pop (op : String) : Act Fault Stack Cell := fun s =>
  match s.cells with
  | []     => (.error (.stackUnderflow op), s)
  | c :: r => (.ok c, ⟨r, s.limit⟩)

/-- The two topmost cells, the lower one first. -/
def popPair (op : String) : Act Fault Stack (Cell × Cell) := fun s =>
  match s.cells with
  | rhs :: lhs :: r => (.ok (lhs, rhs), ⟨r, s.limit⟩)
  | _               => (.error (.stackUnderflow op), s)

/-- Takes an integer. -/
def popInteger (op : String) : Act Fault Stack UInt256 := do
  match ← pop op with
  | .integer v => return v
  | c          => Act.fail (c.mismatch op "integer")

/-- Takes a flag. -/
def popFlag (op : String) : Act Fault Stack Bool := do
  match ← pop op with
  | .flag b => return b
  | c       => Act.fail (c.mismatch op "flag")

/-- Takes an account. -/
def popAccount (op : String) : Act Fault Stack Address := do
  match ← pop op with
  | .account a => return a
  | c          => Act.fail (c.mismatch op "account")

/-- Takes a word. -/
def popWord (op : String) : Act Fault Stack Word := do
  match ← pop op with
  | .word w => return w
  | c       => Act.fail (c.mismatch op "word")

end Stack

end Proviso
