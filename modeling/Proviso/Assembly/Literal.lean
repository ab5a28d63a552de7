import Proviso.Kind
import Proviso.Source.Token

/-!
# Literals

The values that a token can write out: an account, a word, or an integer.
-/

namespace Proviso

/-- A value that a program spells out. -/
inductive Literal where
  | account (a : Address)
  | word (w : Word)
  | integer (v : UInt256)
  deriving DecidableEq

namespace Literal

/-- Forty hexadecimal digits are an account, sixty-four a word, decimal digits an integer. -/
def ofToken? (t : Token) : Option Literal :=
  match (Octets.ofHex? t : Option Address), (Octets.ofHex? t : Option Word) with
  | some a, _    => some (.account a)
  | none, some w => some (.word w)
  | none, none   => (UInt256.ofDecimal? t).map .integer

/-- The kind under which the value is stored. -/
def kind : Literal → ValueKind
  | .account _ => .address
  | .word _    => .bytes32
  | .integer _ => .uint256

/-- The word that stores the value. -/
def toWord : Literal → Word
  | .account a => .ofAddress a
  | .word w    => w
  | .integer v => .ofUInt256 v

end Literal

end Proviso
