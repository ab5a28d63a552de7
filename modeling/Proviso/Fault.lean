import Proviso.Hex

/-!
# Run-time faults

Why the execution of a program stops early. Every fault has a message, and a reason that names the
class of failure it belongs to.
-/

namespace Proviso

/-- Classes of run-time failure. -/
inductive HaltReason where
  | missingOperand | typeMismatch | arithmeticFault | boundsFault | unknownOpcode
  | externalCallFailure | storageFault
  deriving DecidableEq, Repr

/-- The name of a class of failures. -/
def HaltReason.title : HaltReason → String
  | .missingOperand      => "missing-operand"
  | .typeMismatch        => "type-mismatch"
  | .arithmeticFault     => "arithmetic-fault"
  | .boundsFault         => "bounds-fault"
  | .unknownOpcode       => "unknown-opcode"
  | .externalCallFailure => "external-call-failure"
  | .storageFault        => "storage-fault"

/-- What stops a run; `op` is the mnemonic of the opcode at fault. -/
inductive Fault where
  | stackUnderflow (op : String)
  | typeMismatch (op expected actual : String)
  | arrayTypeMismatch (op array declared requested : String)
  | invalidOperand (op reason : String)
  | overflow (op : String)
  | underflow (op : String)
  | divisionByZero (op : String)
  | endOfBytecode (pc requested available : Nat)
  | invalidJump (target length : Nat)
  | stackOverflow (limit : Nat)
  | callDepthExceeded (limit : Nat)
  | indexOutOfBounds (op array index : String) (length : Nat)
  | unknownOpcode (code : UInt8) (offset : Nat)
  | invalidVariant (op : String) (code : UInt8)
  | undeclaredArray (op array : String)
  | externalCallFailed (op : String)
  deriving DecidableEq, Repr

namespace Fault

/-- The class that a failure belongs to. -/
def reason : Fault → HaltReason
  | .stackUnderflow ..                                                => .missingOperand
  | .typeMismatch .. | .arrayTypeMismatch .. | .invalidOperand ..     => .typeMismatch
  | .overflow .. | .underflow .. | .divisionByZero ..                 => .arithmeticFault
  | .endOfBytecode .. | .invalidJump .. | .stackOverflow ..
  | .callDepthExceeded .. | .indexOutOfBounds ..                      => .boundsFault
  | .unknownOpcode .. | .invalidVariant ..                            => .unknownOpcode
  | .undeclaredArray ..                                               => .storageFault
  | .externalCallFailed ..                                            => .externalCallFailure

/-- The sentence that reports a fault. -/
def message : Fault → String
  | .stackUnderflow op => op ++ ": stack underflow"
  | .typeMismatch op expected actual =>
      op ++ ": expected " ++ expected ++ " operand but got " ++ actual
  | .arrayTypeMismatch op array declared requested =>
      op ++ ": array '" ++ array ++ "' holds " ++ declared ++ ", not " ++ requested
  | .invalidOperand op reason => op ++ ": malformed operand (" ++ reason ++ ")"
  | .overflow op => op ++ ": arithmetic overflow"
  | .underflow op => op ++ ": arithmetic underflow"
  | .divisionByZero op => op ++ ": division by zero"
  | .endOfBytecode pc requested available =>
      "unexpected end of bytecode at " ++ Nat.repr pc ++ ": requested " ++ Nat.repr requested
        ++ " byte(s), " ++ Nat.repr available ++ " available"
  | .invalidJump target length =>
      "jump target " ++ Nat.repr target ++ " is outside the " ++ Nat.repr length
        ++ "-byte program"
  | .stackOverflow limit => "operand stack exceeds " ++ Nat.repr limit ++ " cells"
  | .callDepthExceeded limit =>
      "more than " ++ Nat.repr limit ++ " nested branches or calls"
  | .indexOutOfBounds op array index length =>
      op ++ ": index " ++ index ++ " is out of bounds for '" ++ array ++ "' of length "
        ++ Nat.repr length
  | .unknownOpcode code offset =>
      "invalid opcode " ++ Hex.prefixed [code] ++ " at " ++ Nat.repr offset
  | .invalidVariant op code => op ++ ": invalid type code " ++ Hex.prefixed [code]
  | .undeclaredArray op array => op ++ ": array '" ++ array ++ "' is not declared"
  | .externalCallFailed op => op ++ ": external call was rejected"

end Fault

end Proviso
