import Proviso.CompileError
import Proviso.Text.Blank

/-!
# Tokens

A text is cut at white space, commas and colons; the brackets `( ) { }` stand alone. A comment
counts as one blank: `//` up to the end of the line, and `/*` up to the first `*/` behind it.
-/

namespace Proviso

/-- A word of a program. -/
abbrev Token := String

namespace Token

/-- The brace that opens a body or a struct. -/
@[match_pattern]
abbrev lbrace : Token := "\x7b"

/-- The brace that closes a body or a struct. -/
@[match_pattern]
abbrev rbrace : Token := "\x7d"

/-- Bytes of a text in UTF-8. -/
def byteLength (cs : List Char) : Nat :=
  cs.foldr (fun c n => c.utf8Size + n) 0

/-- Where in the text the scan is: in the code, in a line comment, or in a block comment that
starts at a byte. -/
inductive Scan where
  | code
  | line
  | block (start : Nat)

/-- The text with each comment replaced by a blank; `total` is the number of bytes of the text
that `cs` ends. -/
def blankComments (total : Nat) : Scan → List Char → Except CompileError (List Char)
  | .code, []                    => .ok []
  | .code, '/' :: '/' :: r       => (blankComments total .line r).map (' ' :: ·)
  | .code, '/' :: '*' :: r       =>
      (blankComments total (.block (total - byteLength ('/' :: '*' :: r))) r).map (' ' :: ·)
  | .code, c :: r                => (blankComments total .code r).map (c :: ·)
  | .line, []                    => .ok []
  | .line, c :: r                =>
      if c = '\n' then blankComments total .code r else blankComments total .line r
  | .block start, []             => .error (.unterminatedComment start)
  | .block _, '*' :: '/' :: r    => blankComments total .code r
  | .block start, _ :: r         => blankComments total (.block start) r

/-- Whether a character separates tokens. -/
def isSeparator (c : Char) : Bool :=
  Text.isBlank c || c == ',' || c == ':'

/-- The brackets that are tokens by themselves. -/
def isBracket (c : Char) : Bool :=
  c == '(' || c == ')' || c == '{' || c == '}'

/-- The token that has been collected, if it is not empty. -/
def flush (current : List Char) : List Token :=
  if current.isEmpty then [] else [String.ofList current.reverse]

/-- The tokens of a text without comments; `current` is the token under way, last character
first. -/
def splitFrom (current : List Char) : List Char → List Token
  | []     => flush current
  | c :: r =>
    if isSeparator c then flush current ++ splitFrom [] r
    else if isBracket c then flush current ++ String.ofList [c] :: splitFrom [] r
    else splitFrom (c :: current) r

/-- The tokens of a text. -/
def tokenize (text : String) : Except CompileError (List Token) :=
  let cs := text.toList
  (blankComments (byteLength cs) .code cs).map (splitFrom [])

/-- Whether a token starts with a decimal digit. -/
def isNumeric (t : Token) : Bool :=
  match t.toList with
  | c :: _ => '0' ≤ c && c ≤ '9'
  | []     => false

/-- The token without an ending, if it has it. -/
def dropEnding? (ending : List Char) (cs : List Char) : Option (List Char) :=
  if ending.isSuffixOf cs then some (cs.take (cs.length - ending.length)) else none

/-- The parts before and behind the first `c`. -/
def splitAt? (c : Char) (cs : List Char) : Option (List Char × List Char) :=
  match cs.dropWhile (· != c) with
  | _ :: r => some (cs.takeWhile (· != c), r)
  | []     => none

end Token

end Proviso
