import Proviso.Source.Sugar
import Proviso.UInt256

/-!
# Calls with arguments

`func F n a1 … an endf` binds each argument to a variable `F_i` and then calls `F`. An argument is
a literal or the name of a variable, whose value is taken when the call is made.
-/

namespace Proviso.Call

/-- The instructions that bind the arguments from number `n` on. -/
def bindings (function : Token) : Nat → List Token → List Token
  | _, []       => []
  | n, a :: as  =>
    (if Token.isNumeric a then [(Opcode.literal .integer).mnemonic, a]
     else [Opcode.loadLocal.mnemonic, ValueKind.uint256.name, a])
      ++ (Opcode.set .integer).mnemonic :: (function ++ "_" ++ Nat.repr n)
      :: bindings function (n + 1) as

/-- The number of arguments, below `2 ^ 64`. -/
def argumentCount? (t : Token) : Option Nat :=
  (natOfDigits? t.toList).filter (· < UInt64.size)

/-- The call of `function` with the arguments before the next `endf`, and the tokens behind. -/
def callWith (function count : Token) (r : List Token) :
    Except CompileError (List Token × List Token) :=
  match argumentCount? count with
  | none   => .error (.malformedSugar "function call" count)
  | some n =>
    let args := r.takeWhile (· != "endf")
    match r.dropWhile (· != "endf") with
    | []        => .error (.malformedSugar "function call" function)
    | _ :: rest =>
      if args.length = n then
        .ok (bindings function 1 args ++ [Opcode.call.mnemonic, function], rest)
      else .error (.argumentCountMismatch function n args.length)

/-- What stands for a token and those it takes with it, and the tokens behind. -/
def item (t : Token) (r : List Token) : Except CompileError (List Token × List Token) :=
  if t = "endf" then .error (.unexpectedToken t "outside a function call")
  else if t = Opcode.call.mnemonic then
    match r with
    | function :: count :: rest =>
        if Token.isNumeric count then callWith function count rest else .ok ([t], r)
    | _ => .ok ([t], r)
  else .ok ([t], r)

/-- What stands behind a call is no longer than the tokens behind its count. -/
theorem callWith_length {function count : Token} {r out rest : List Token}
    (h : callWith function count r = .ok (out, rest)) : rest.length ≤ r.length := by
  have hl := (List.dropWhile_sublist (l := r) (· != "endf")).length_le
  unfold callWith at h
  split at h
  · cases h
  · dsimp only at h
    split at h
    · cases h
    · next hd =>
      split at h
      · cases h
        rw [hd] at hl
        exact Nat.le_trans (Nat.le_succ _) hl
      · cases h

/-- An item takes at least its first token. -/
theorem item_length {t : Token} {r out rest : List Token} (h : item t r = .ok (out, rest)) :
    rest.length ≤ r.length := by
  unfold item at h
  split at h
  · cases h
  · split at h
    · split at h
      · split at h
        · exact Nat.le_trans (callWith_length h) (by simp; omega)
        · cases h; exact Nat.le_refl _
      · cases h; exact Nat.le_refl _
    · cases h; exact Nat.le_refl _

/-- Replaces every call with arguments. -/
def expand : List Token → Except CompileError (List Token)
  | []     => .ok []
  | t :: r =>
    match _h : item t r with
    | .error e        => .error e
    | .ok (out, rest) =>
      match expand rest with
      | .error e => .error e
      | .ok more => .ok (out ++ more)
termination_by tokens => tokens.length
decreasing_by exact Nat.lt_succ_of_le (item_length _h)

end Proviso.Call
