import Proviso.Registry
import Proviso.Source.Token

/-!
# Named bodies

A body is written where the program mentions it, as `LABEL { … }` or `branch LABEL { … }`. Bodies
are moved behind the main block, label first, and each block is closed by `end`.
-/

namespace Proviso.Body

/-- A piece of a program: a token of the main block, or a named body. -/
inductive Piece where
  | main (token : Token)
  | body (label : Token) (tokens : List Token)
  deriving DecidableEq

/-- Whether a token may not name a body. -/
def isReserved (reg : Registry) (label : Token) : Bool :=
  (reg.lookup? label).isSome || Token.isNumeric label || label == "(" || label == ")"

/-- The tokens up to the closing brace of a body, and those behind it; `previous` is the token
just before. -/
def cut (label previous : Token) : List Token → Except CompileError (List Token × List Token)
  | []     => .error (.unterminatedBody label)
  | t :: r =>
    if t = Token.lbrace then .error (.nestedBody previous)
    else if t = Token.rbrace then .ok ([], r)
    else (cut label t r).map fun (body, rest) => (t :: body, rest)

/-- The body under a label that no earlier one has, and the tokens behind it. -/
def labelled (reg : Registry) (seen : List Token) (label : Token) (r : List Token) :
    Except CompileError (Piece × List Token) :=
  if isReserved reg label then .error (.invalidLabel label)
  else if seen.contains label then .error (.duplicateLabel label)
  else (cut label Token.lbrace r).map fun (body, rest) => (.body label body, rest)

/-- The piece that starts with `t`, and the tokens behind it. -/
def piece (reg : Registry) (seen : List Token) (t : Token) (r : List Token) :
    Except CompileError (Piece × List Token) :=
  if t = "branch" then
    match r with
    | label :: Token.lbrace :: rest => labelled reg seen label rest
    | _                             => .error (.malformedSugar "branch" t)
  else if t = Token.lbrace then .error (.unexpectedToken t "without a body label")
  else if t = Token.rbrace then .error (.unexpectedToken t "without an open body")
  else
    match r with
    | Token.lbrace :: rest => labelled reg seen t rest
    | _                    => .ok (.main t, r)

/-- What stands behind a body is no longer than the tokens it was cut from. -/
theorem cut_length {label previous : Token} {r body rest : List Token}
    (h : cut label previous r = .ok (body, rest)) : rest.length ≤ r.length := by
  induction r generalizing previous body with
  | nil => simp [cut] at h
  | cons t r ih =>
    rw [cut] at h
    split at h
    · cases h
    · split at h
      · cases h; exact Nat.le_succ _
      · cases hc : cut label t r with
        | error e => rw [hc] at h; cases h
        | ok p =>
          rw [hc] at h
          cases h
          exact Nat.le_succ_of_le (ih hc)

theorem labelled_length {reg : Registry} {seen : List Token} {label : Token}
    {r rest : List Token} {p : Piece} (h : labelled reg seen label r = .ok (p, rest)) :
    rest.length ≤ r.length := by
  unfold labelled at h
  split at h
  · cases h
  · split at h
    · cases h
    · cases hc : cut label Token.lbrace r with
      | error e => rw [hc] at h; cases h
      | ok q =>
        rw [hc] at h
        cases h
        exact cut_length hc

/-- A piece takes at least its first token. -/
theorem piece_length {reg : Registry} {seen : List Token} {t : Token} {r rest : List Token}
    {p : Piece} (h : piece reg seen t r = .ok (p, rest)) : rest.length ≤ r.length := by
  unfold piece at h
  split at h
  · split at h
    · exact Nat.le_trans (labelled_length h) (by simp; omega)
    · cases h
  · split at h
    · cases h
    · split at h
      · cases h
      · split at h
        · exact Nat.le_trans (labelled_length h) (by simp)
        · cases h; exact Nat.le_refl _

/-- The label of a body. -/
def Piece.label? : Piece → Option Token
  | .main _      => none
  | .body l _    => some l

/-- The pieces of a program; `seen` are the labels in use. -/
def pieces (reg : Registry) (seen : List Token) : List Token → Except CompileError (List Piece)
  | []     => .ok []
  | t :: r =>
    match _h : piece reg seen t r with
    | .error e      => .error e
    | .ok (p, rest) =>
      match pieces reg (p.label?.toList ++ seen) rest with
      | .error e => .error e
      | .ok more => .ok (p :: more)
termination_by tokens => tokens.length
decreasing_by exact Nat.lt_succ_of_le (piece_length _h)

/-- A block with `end` as its last token. -/
def closed (tokens : List Token) : List Token :=
  if tokens.getLast? = some "end" then tokens else tokens ++ ["end"]

/-- The tokens of the main block. -/
def mainTokens (ps : List Piece) : List Token :=
  ps.filterMap fun
    | .main t   => some t
    | .body _ _ => none

/-- The bodies, each with its label. -/
def bodies (ps : List Piece) : List (Token × List Token) :=
  ps.filterMap fun
    | .main _      => none
    | .body l body => some (l, body)

/-- The main block first, then the bodies; a program without bodies is left open. -/
def layout (ps : List Piece) : List Token :=
  if (bodies ps).isEmpty then mainTokens ps
  else closed (mainTokens ps) ++ (bodies ps).flatMap fun (l, body) => l :: closed body

/-- Moves the bodies behind the main block. -/
def hoist (reg : Registry) (tokens : List Token) : Except CompileError (List Token) :=
  (pieces reg [] tokens).map layout

end Proviso.Body
