import Proviso.Registry
import Proviso.Source.Token

/-!
# Postfix order

Operators move behind their operands. Tokens that are no operators keep their order, so that an
operand of several tokens stays whole. A statement, a brace or a word that opens or closes a
construct ends the expression before it: the operators that wait in the current parentheses come
out first.
-/

namespace Proviso.Postfix

/-- An operator or an open parenthesis that waits. -/
inductive Pending where
  | operator (token : Token) (precedence : Nat)
  | paren
  deriving DecidableEq

/-- Words that end an expression and are no statements. -/
def boundaryWords : List Token :=
  [Token.lbrace, Token.rbrace, "branch", "insert", "endf"]

/-- Whether a token ends the expression before it; a label does, because a brace follows it. -/
def isBoundary (reg : Registry) (t : Token) (next : Option Token) : Bool :=
  boundaryWords.contains t
    || (Token.dropEnding? ['[', ']'] t.toList).isSome
    || reg.isStatement t
    || next == some Token.lbrace

/-- The operators down to the innermost parenthesis, and what waits below. -/
def popScope : List Pending → List Token × List Pending
  | .operator t _ :: r =>
    let (ops, rest) := popScope r
    (t :: ops, rest)
  | pending => ([], pending)

/-- The operators that bind at least as tightly as `p`, and what waits below. -/
def popTighter (p : Nat) : List Pending → List Token × List Pending
  | .operator t q :: r =>
    if q < p then ([], .operator t q :: r)
    else
      let (ops, rest) := popTighter p r
      (t :: ops, rest)
  | pending => ([], pending)

/-- All that waits at the end; a parenthesis should not be there any more. -/
def drain : List Pending → Except CompileError (List Token)
  | []                 => .ok []
  | .operator t _ :: r => (drain r).map (t :: ·)
  | .paren :: _        => .error (.unbalancedParen "(")

/-- The postfix order of the tokens behind those that wait. -/
def convertFrom (reg : Registry) : List Pending → List Token → Except CompileError (List Token)
  | pending, []     => drain pending
  | pending, t :: r =>
    if t = "(" then convertFrom reg (.paren :: pending) r
    else if t = ")" then
      match popScope pending with
      | (ops, .paren :: rest) => (convertFrom reg rest r).map (ops ++ ·)
      | (_, _)                => .error (.unbalancedParen ")")
    else
      match reg.operator? t with
      | some (.unary p)  => convertFrom reg (.operator t p :: pending) r
      | some (.binary p) =>
        let (ops, rest) := popTighter p pending
        (convertFrom reg (.operator t p :: rest) r).map (ops ++ ·)
      | _ =>
        if isBoundary reg t r.head? then
          let (ops, rest) := popScope pending
          (convertFrom reg rest r).map (ops ++ t :: ·)
        else (convertFrom reg pending r).map (t :: ·)

/-- The tokens in postfix order. -/
def convert (reg : Registry) (tokens : List Token) : Except CompileError (List Token) :=
  convertFrom reg [] tokens

end Proviso.Postfix
