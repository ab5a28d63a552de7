/-!
# Compile errors

Why a text is not a program. Each error names what it is about, and has a message.
-/

namespace Proviso

/-- Why a numeric literal is refused. -/
inductive NumeralFault where
  | multipleExponents | uppercaseExponent | nonDecimal | hexLiteral | fractionalResult | overflow
  deriving DecidableEq, Repr

namespace NumeralFault

/-- All faults of numerals. -/
def all : List NumeralFault :=
  [.multipleExponents, .uppercaseExponent, .nonDecimal, .hexLiteral, .fractionalResult, .overflow]

/-- The code by which a message names a fault. -/
def code : NumeralFault → String
  | .multipleExponents => "N001"
  | .uppercaseExponent => "N002"
  | .nonDecimal        => "N003"
  | .hexLiteral        => "N004"
  | .fractionalResult  => "N005"
  | .overflow          => "N006"

/-- A fault in words. -/
def describe : NumeralFault → String
  | .multipleExponents => "more than one exponent marker"
  | .uppercaseExponent => "exponent marker must be lowercase 'e'"
  | .nonDecimal        => "non-decimal character"
  | .hexLiteral        => "hex literal is not an account or a 32-byte word"
  | .fractionalResult  => "value is not a whole number"
  | .overflow          => "value does not fit in 256 bits"

/-- The code in brackets, then the description. -/
def message (f : NumeralFault) : String :=
  "[" ++ f.code ++ "] " ++ f.describe

/-- The fault that has a code. -/
def ofCode? (s : String) : Option NumeralFault :=
  all.find? (·.code == s)

end NumeralFault

/-- Why a text does not compile. -/
inductive CompileError where
  | unterminatedComment (offset : Nat)
  | malformedNumber (token : String) (fault : NumeralFault)
  | unbalancedParen (token : String)
  | unknownCommand (token : String)
  | missingArgument (op : String)
  | invalidOperand (op expected token : String)
  | invalidVariant (op token : String)
  | nameTooLong (name : String)
  | duplicateLabel (label : String)
  | undefinedLabel (label : String)
  | unreferencedLabel (label : String)
  | invalidLabel (label : String)
  | unterminatedBody (label : String)
  | nestedBody (label : String)
  | unexpectedToken (token context : String)
  | argumentCountMismatch (function : String) (expected found : Nat)
  | malformedSugar (construct token : String)
  | programTooLarge (size : Nat)
  deriving DecidableEq, Repr

namespace CompileError

/-- The sentence that reports an error. -/
def message : CompileError → String
  | .unterminatedComment offset =>
      "unterminated block comment starting at byte " ++ Nat.repr offset
  | .malformedNumber token fault => "malformed number '" ++ token ++ "': " ++ fault.message
  | .unbalancedParen token => "unbalanced parenthesis '" ++ token ++ "'"
  | .unknownCommand token => "unknown command '" ++ token ++ "'"
  | .missingArgument op => op ++ ": missing argument"
  | .invalidOperand op expected token =>
      op ++ ": expected " ++ expected ++ ", got '" ++ token ++ "'"
  | .invalidVariant op token => op ++ ": unsupported type '" ++ token ++ "'"
  | .nameTooLong name => "name '" ++ name ++ "' is longer than 32 bytes"
  | .duplicateLabel label => "duplicate label: " ++ label
  | .undefinedLabel label => "undefined label: " ++ label
  | .unreferencedLabel label =>
      "label '" ++ label ++ "' has a body but nothing branches to it"
  | .invalidLabel label => "'" ++ label ++ "' cannot be used as a label"
  | .unterminatedBody label => "body '" ++ label ++ "' is not closed"
  | .nestedBody label => "body '" ++ label ++ "' is defined inside another body"
  | .unexpectedToken token context => "unexpected '" ++ token ++ "' " ++ context
  | .argumentCountMismatch function expected found =>
      "function '" ++ function ++ "' expects " ++ Nat.repr expected ++ " argument(s), got "
        ++ Nat.repr found
  | .malformedSugar construct token => "malformed " ++ construct ++ " near '" ++ token ++ "'"
  | .programTooLarge size =>
      "program of " ++ Nat.repr size ++ " bytes exceeds the 16-bit branch offset range"

/-- The piece of source text an error is about, if it names one. -/
def culprit? : CompileError → Option String
  | .malformedNumber token _ | .unbalancedParen token | .unknownCommand token
  | .invalidOperand _ _ token | .invalidVariant _ token | .unexpectedToken token _
  | .malformedSugar _ token => some token
  | .nameTooLong name => some name
  | .duplicateLabel label | .undefinedLabel label | .unreferencedLabel label
  | .invalidLabel label | .unterminatedBody label | .nestedBody label => some label
  | .argumentCountMismatch function _ _ => some function
  | .unterminatedComment _ | .missingArgument _ | .programTooLarge _ => none

end CompileError

end Proviso
