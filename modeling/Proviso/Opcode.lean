import Proviso.Kind

/-!
# The instruction set

Every opcode with its byte, its name in programs, the family it belongs to, the part it plays in
an expression, and the operands that follow its byte.
-/

namespace Proviso

/-- How an inline operand is written. -/
inductive OperandKind where
  | variant | slot | int | flag | account | word | label | name | value | fields
  deriving DecidableEq, Repr

namespace OperandKind

/-- The name of a kind of operands in a message. -/
def title : OperandKind → String
  | .variant => "variant"
  | .slot    => "slot"
  | .int     => "int"
  | .flag    => "flag"
  | .account => "account"
  | .word    => "word"
  | .label   => "label"
  | .name    => "name"
  | .value   => "value"
  | .fields  => "fields"

/-- Bytes of an operand; struct fields have no fixed number of them. -/
def width? : OperandKind → Option Nat
  | .variant | .flag        => some 1
  | .slot                   => some 4
  | .label                  => some 2
  | .account                => some 20
  | .int | .word | .name    => some 32
  | .value                  => some 33
  | .fields                 => none

/-- What a message says was expected. -/
def describe : OperandKind → String
  | .variant => "a type name"
  | .slot    => "a variable name"
  | .int     => "an unsigned integer"
  | .flag    => "true or false"
  | .account => "a 20-byte hex account"
  | .word    => "a 32-byte hex word"
  | .label   => "a label"
  | .name    => "a name of at most 32 bytes"
  | .value   => "a literal or struct name"
  | .fields  => "a struct name and field pairs"

end OperandKind

/-- A named operand of an opcode. -/
structure Param where
  field : String
  kind : OperandKind
  deriving DecidableEq, Repr

/-- The part an opcode plays in an expression. -/
inductive Form where
  | value
  | statement
  /-- A left-associative operator between two operands. -/
  | binary (precedence : Nat)
  /-- An operator in front of one operand. -/
  | unary (precedence : Nat)
  deriving DecidableEq, Repr

/-- How tightly an operator binds. -/
def Form.precedence? : Form → Option Nat
  | .binary p | .unary p => some p
  | .value | .statement  => none

/-- The families of opcodes; each has its handler. -/
inductive Category where
  | comparison | logical | branching | storage | transfer | collections | environment
  deriving DecidableEq, Repr

/-- The name of a family. -/
def Category.title : Category → String
  | .comparison  => "comparison"
  | .logical     => "logical"
  | .branching   => "branching"
  | .storage     => "storage"
  | .transfer    => "transfer"
  | .collections => "collections"
  | .environment => "environment"

/-- The comparisons. -/
inductive Comparison where
  | eq | ne | lt | gt | le | ge
  deriving DecidableEq, Repr

/-- The connectives of flags. -/
inductive Connective where
  | and | or | xor
  deriving DecidableEq, Repr

/-- The operations on integers. -/
inductive Arithmetic where
  | add | sub | mul | div
  deriving DecidableEq, Repr

/-- The types that a variable can be set to and a literal can have. -/
inductive Scalar where
  | integer | flag | account | word
  deriving DecidableEq, Repr

/-- What a program can ask about its block and message. -/
inductive Reading where
  | blockNumber | blockTimestamp | chainId | sender | value
  deriving DecidableEq, Repr

/-- The opcodes of the machine. -/
inductive Opcode where
  | compare (c : Comparison)
  | not
  | connect (c : Connective)
  | compute (a : Arithmetic)
  | ifThen | ifElse | call | close
  | loadLocal | loadRemote
  | set (s : Scalar)
  | sendNative | transfer | transferVar | transferFrom | balanceOf | allowance | mint | burn
  | declare | append | element | sum | fieldSum | length | struct | endStruct
  | literal (s : Scalar)
  | read (r : Reading)
  deriving DecidableEq, Repr

namespace Opcode

/-- Every opcode, in the order of the table. -/
def all : List Opcode :=
  [.compare .eq, .compare .ne, .compare .lt, .compare .gt, .compare .le, .compare .ge,
   .not, .connect .and, .connect .or, .connect .xor,
   .compute .add, .compute .sub, .compute .mul, .compute .div,
   .ifThen, .ifElse, .call, .close,
   .loadLocal, .loadRemote, .set .integer, .set .flag, .set .account, .set .word,
   .sendNative, .transfer, .transferVar, .transferFrom, .balanceOf, .allowance, .mint, .burn,
   .declare, .append, .element, .sum, .fieldSum, .length, .struct, .endStruct,
   .literal .integer, .literal .flag, .literal .account, .literal .word,
   .read .blockNumber, .read .blockTimestamp, .read .chainId, .read .sender, .read .value]

/-- The byte that stands for an opcode. -/
def code : Opcode → UInt8
  | .compare .eq           => 0x01
  | .compare .ne           => 0x02
  | .compare .lt           => 0x03
  | .compare .gt           => 0x04
  | .compare .le           => 0x05
  | .compare .ge           => 0x06
  | .not                   => 0x10
  | .connect .and          => 0x11
  | .connect .or           => 0x12
  | .connect .xor          => 0x13
  | .compute .add          => 0x14
  | .compute .sub          => 0x15
  | .compute .mul          => 0x16
  | .compute .div          => 0x17
  | .ifThen                => 0x20
  | .ifElse                => 0x21
  | .call                  => 0x22
  | .close                 => 0x23
  | .literal .integer      => 0x30
  | .literal .flag         => 0x31
  | .literal .account      => 0x32
  | .literal .word         => 0x33
  | .read .blockNumber     => 0x34
  | .read .blockTimestamp  => 0x35
  | .read .chainId         => 0x36
  | .read .sender          => 0x37
  | .read .value           => 0x38
  | .loadLocal             => 0x40
  | .loadRemote            => 0x41
  | .set .integer          => 0x42
  | .set .flag             => 0x43
  | .set .account          => 0x44
  | .set .word             => 0x45
  | .sendNative            => 0x50
  | .transfer              => 0x51
  | .transferVar           => 0x52
  | .transferFrom          => 0x53
  | .balanceOf             => 0x54
  | .allowance             => 0x55
  | .mint                  => 0x56
  | .burn                  => 0x57
  | .declare               => 0x60
  | .append                => 0x61
  | .element               => 0x62
  | .sum                   => 0x63
  | .fieldSum              => 0x64
  | .length                => 0x65
  | .struct                => 0x66
  | .endStruct             => 0x67

/-- The name of an opcode in programs, listings and messages. -/
def mnemonic : Opcode → String
  | .compare .eq           => "=="
  | .compare .ne           => "!="
  | .compare .lt           => "<"
  | .compare .gt           => ">"
  | .compare .le           => "<="
  | .compare .ge           => ">="
  | .not                   => "!"
  | .connect .and          => "and"
  | .connect .or           => "or"
  | .connect .xor          => "xor"
  | .compute .add          => "+"
  | .compute .sub          => "-"
  | .compute .mul          => "*"
  | .compute .div          => "/"
  | .ifThen                => "if"
  | .ifElse                => "ifelse"
  | .call                  => "func"
  | .close                 => "end"
  | .literal .integer      => "uint256"
  | .literal .flag         => "bool"
  | .literal .account      => "address"
  | .literal .word         => "bytes32"
  | .read .blockNumber     => "blockNumber"
  | .read .blockTimestamp  => "blockTimestamp"
  | .read .chainId         => "blockChainId"
  | .read .sender          => "msgSender"
  | .read .value           => "msgValue"
  | .loadLocal             => "loadLocal"
  | .loadRemote            => "loadRemote"
  | .set .integer          => "setUint256"
  | .set .flag             => "setLocalBool"
  | .set .account          => "setLocalAddress"
  | .set .word             => "setLocalBytes32"
  | .sendNative            => "sendEth"
  | .transfer              => "transfer"
  | .transferVar           => "transferVar"
  | .transferFrom          => "transferFrom"
  | .balanceOf             => "balanceOf"
  | .allowance             => "allowance"
  | .mint                  => "mint"
  | .burn                  => "burn"
  | .declare               => "declareArr"
  | .append                => "push"
  | .element               => "get"
  | .sum                   => "sumOf"
  | .fieldSum              => "sumThroughStructs"
  | .length                => "lengthOf"
  | .struct                => "struct"
  | .endStruct             => "endStruct"

/-- The family that an opcode belongs to. -/
def category : Opcode → Category
  | .compare _                                              => .comparison
  | .not | .connect _ | .compute _                          => .logical
  | .ifThen | .ifElse | .call | .close                      => .branching
  | .loadLocal | .loadRemote | .set _                       => .storage
  | .sendNative | .transfer | .transferVar | .transferFrom
  | .balanceOf | .allowance | .mint | .burn                 => .transfer
  | .declare | .append | .element | .sum | .fieldSum
  | .length | .struct | .endStruct                          => .collections
  | .literal _ | .read _                                    => .environment

/-- Conjunction binds tighter than disjunction, comparison tighter than both, and arithmetic
tighter than comparison; negation binds tightest. -/
def form : Opcode → Form
  | .connect .or | .connect .xor                             => .binary 1
  | .connect .and                                            => .binary 2
  | .compare .eq | .compare .ne                              => .binary 3
  | .compare .lt | .compare .gt | .compare .le | .compare .ge => .binary 4
  | .compute .add | .compute .sub                            => .binary 5
  | .compute .mul | .compute .div                            => .binary 6
  | .not                                                     => .unary 7
  | .ifThen | .ifElse | .call | .close | .set _
  | .declare | .append | .struct | .endStruct                => .statement
  | .loadLocal | .loadRemote
  | .sendNative | .transfer | .transferVar | .transferFrom
  | .balanceOf | .allowance | .mint | .burn
  | .element | .sum | .fieldSum | .length
  | .literal _ | .read _                                     => .value

/-- The operands that follow the opcode's byte. -/
@[reducible] def params : Opcode → List Param
  | .compare _ | .not | .connect _ | .compute _ => []
  | .ifThen           => [⟨"target", .label⟩]
  | .ifElse           => [⟨"good", .label⟩, ⟨"bad", .label⟩]
  | .call             => [⟨"body", .label⟩]
  | .close            => []
  | .loadLocal        => [⟨"kind", .variant⟩, ⟨"name", .slot⟩]
  | .loadRemote       => [⟨"kind", .variant⟩, ⟨"name", .slot⟩, ⟨"account", .account⟩]
  | .set _            => [⟨"name", .slot⟩]
  | .sendNative       => [⟨"to", .slot⟩, ⟨"amount", .int⟩]
  | .transfer         => [⟨"token", .slot⟩, ⟨"to", .slot⟩, ⟨"amount", .int⟩]
  | .transferVar      => [⟨"token", .slot⟩, ⟨"to", .slot⟩, ⟨"amount", .slot⟩]
  | .transferFrom     => [⟨"token", .slot⟩, ⟨"from", .slot⟩, ⟨"to", .slot⟩, ⟨"amount", .int⟩]
  | .balanceOf        => [⟨"token", .slot⟩, ⟨"owner", .slot⟩]
  | .allowance        => [⟨"token", .slot⟩, ⟨"owner", .slot⟩, ⟨"spender", .slot⟩]
  | .mint             => [⟨"token", .slot⟩, ⟨"to", .slot⟩, ⟨"amount", .int⟩]
  | .burn             => [⟨"token", .slot⟩, ⟨"from", .slot⟩, ⟨"amount", .int⟩]
  | .declare          => [⟨"kind", .variant⟩, ⟨"name", .name⟩]
  | .append           => [⟨"value", .value⟩, ⟨"name", .name⟩]
  | .element          => [⟨"index", .int⟩, ⟨"name", .name⟩]
  | .sum              => [⟨"name", .name⟩]
  | .fieldSum         => [⟨"name", .name⟩, ⟨"field", .name⟩]
  | .length           => [⟨"name", .name⟩]
  | .struct           => [⟨"fields", .fields⟩]
  | .endStruct        => []
  | .literal .integer => [⟨"value", .int⟩]
  | .literal .flag    => [⟨"value", .flag⟩]
  | .literal .account => [⟨"value", .account⟩]
  | .literal .word    => [⟨"value", .word⟩]
  | .read _           => []

/-- The kinds that a type operand of the opcode may name. -/
def variants : Opcode → List ValueKind
  | .loadLocal | .loadRemote => [.uint256, .bool, .address, .bytes32, .string]
  | .declare                 => [.uint256, .bool, .address, .bytes32, .struct]
  | _                        => []

/-- Bytes of an instruction, if all its operands have a fixed width. -/
def fixedSize? (op : Opcode) : Option Nat :=
  op.params.foldlM (fun acc p => p.kind.width?.map (acc + ·)) 1

/-- The opcode that a byte stands for. -/
def ofCode? (c : UInt8) : Option Opcode :=
  all.find? (·.code == c)

/-- The opcode that has this mnemonic. -/
def ofMnemonic? (s : String) : Option Opcode :=
  all.find? (·.mnemonic == s)

end Opcode

end Proviso
