import Proviso.CompileError
import Proviso.Source.Token
import Proviso.Text.Alphanumeric

/-!
# Diagnostics

A compile error with the place in the text that it is about: file, line and column, the line
itself, and a mark under the place.
-/

namespace Proviso.Diagnostic

/-- Whether no word goes on at this end: nothing stands there, or neither a letter, a number nor
an underscore. -/
def isEdge : Option Char → Bool
  | none   => true
  | some c => !(Text.isAlphanumeric c || c == '_')

/-- Looks for an occurrence of `token` with an edge on both sides, from left to right; `before`
is the text passed so far, last character first. An occurrence that has no such edges is passed as
a whole. Gives the text before the one that is found. -/
def locateFrom (token before : List Char) (rest : List Char) : Option (List Char) :=
  if token.isPrefixOf rest then
    if isEdge before.head? && isEdge (rest.drop token.length).head? then some before.reverse
    else
      match _h : rest with
      | []     => none
      | c :: r =>
        locateFrom token ((c :: r.take (token.length - 1)).reverse ++ before)
          (r.drop (token.length - 1))
  else
    match _h : rest with
    | []     => none
    | c :: r => locateFrom token (c :: before) r
termination_by rest.length
decreasing_by
  · exact Nat.lt_succ_of_le (List.drop_sublist _ _).length_le
  · exact Nat.lt_succ_self _

/-- The text before the first occurrence of a token as a whole word. -/
def locate (source token : String) : Option (List Char) :=
  locateFrom token.toList [] source.toList

/-- The characters that the first `n` bytes hold. -/
def takeBytes (n : Nat) : List Char → List Char
  | []     => []
  | c :: r => if n = 0 then [] else c :: takeBytes (n - c.utf8Size) r

/-- Line and column, both from one, of the place behind `before`. -/
def lineColumn (before : List Char) : Nat × Nat :=
  (before.count '\n' + 1, (before.reverse.takeWhile (· != '\n')).length + 1)

/-- The text before the place that an error is about. -/
def place? (source : String) : CompileError → Option (List Char)
  | .unterminatedComment offset => some (takeBytes offset source.toList)
  | e                           => e.culprit?.bind (locate source)

/-- The pieces between newlines. -/
def splitLines : List Char → List (List Char)
  | []     => [[]]
  | c :: r =>
    match splitLines r with
    | []      => [[c]]
    | l :: ls => if c = '\n' then [] :: l :: ls else (c :: l) :: ls

/-- Line `n`, counted from one, without carriage returns at its end. A newline at the end of the
text opens no line. -/
def line? (source : String) (n : Nat) : Option String :=
  let ls := splitLines source.toList
  match ls[n - 1]? with
  | none   => none
  | some l =>
    if l.isEmpty && n == ls.length then none
    else some (String.ofList (l.reverse.dropWhile (· == '\r')).reverse)

/-- A text with blanks in front, up to `width` characters. -/
def padLeft (width : Nat) (s : String) : String :=
  String.ofList (List.replicate (width - s.toList.length) ' ') ++ s

/-- The diagnostic of an error in a file with the given text. -/
def render (file source : String) (e : CompileError) : String :=
  "error: " ++ e.message ++ "\n" ++
    match place? source e with
    | none        => " --> " ++ file ++ "\n"
    | some before =>
      let (line, column) := lineColumn before
      " --> " ++ file ++ ":" ++ Nat.repr line ++ ":" ++ Nat.repr column ++ "\n" ++
        match line? source line with
        | none      => ""
        | some text =>
          "  |\n" ++ padLeft 4 (Nat.repr line) ++ " | " ++ text ++ "\n  | "
            ++ String.ofList (List.replicate (column - 1) ' ') ++ "^\n"

end Proviso.Diagnostic
