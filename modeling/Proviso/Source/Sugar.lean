import Proviso.Opcode
import Proviso.Source.Token

/-!
# Shorthands for collections

`TYPE[] NAME` declares an array, `insert V into NAME` appends to one, `struct NAME { k v … }`
writes a struct, and `sumOf NAME.field` sums a field. Each is replaced by the instruction that it
stands for.
-/

namespace Proviso.Sugar

/-- Whether arrays of a kind with this name can be declared. -/
def isDeclarable (kind : Token) : Bool :=
  match ValueKind.ofName? kind with
  | some k => Opcode.declare.variants.contains k
  | none   => false

/-- The declaration of an array whose elements have the kind that `kind` names. -/
def declaration (t kind : Token) : List Token → Except CompileError (List Token × List Token)
  | name :: r =>
      if isDeclarable kind then .ok ([Opcode.declare.mnemonic, kind, name], r)
      else .error (.malformedSugar "array declaration" t)
  | [] => .error (.malformedSugar "array declaration" t)

/-- The append that `insert V into NAME` stands for. -/
def insertion : List Token → Except CompileError (List Token × List Token)
  | value :: into :: name :: r =>
      if into = "into" then .ok ([Opcode.append.mnemonic, value, name], r)
      else .error (.malformedSugar "insert" into)
  | _ => .error (.malformedSugar "insert" "insert")

/-- The struct literal whose fields stand before the next closing brace. -/
def structLiteral (name : Token) (r : List Token) :
    Except CompileError (List Token × List Token) :=
  let fields := r.takeWhile (· != Token.rbrace)
  match r.dropWhile (· != Token.rbrace) with
  | []        => .error (.malformedSugar "struct" name)
  | _ :: rest =>
    if fields.length % 2 ≠ 0 ∨ Token.lbrace ∈ fields then .error (.malformedSugar "struct" name)
    else .ok (Opcode.struct.mnemonic :: name :: fields ++ [Opcode.endStruct.mnemonic], rest)

/-- A sum over an array, or over a field of the structs in one. -/
def summation : List Token → Except CompileError (List Token × List Token)
  | []          => .error (.malformedSugar "sumOf" "sumOf")
  | target :: r =>
    match Token.splitAt? '.' target.toList with
    | none => .ok ([Opcode.sum.mnemonic, target], r)
    | some (array, field) =>
      if array.isEmpty || field.isEmpty then .error (.malformedSugar "sumOf" target)
      else
        .ok ([Opcode.fieldSum.mnemonic, String.ofList array, String.ofList field], r)

/-- What stands for the construct that starts with `t`, and the tokens behind it. The token that
was written last tells a struct literal from the element kind of a declaration. -/
def construct (last : Option Token) (t : Token) (r : List Token) :
    Except CompileError (List Token × List Token) :=
  match Token.dropEnding? ['[', ']'] t.toList with
  | some kind => declaration t (String.ofList kind) r
  | none =>
    if t = "insert" then insertion r
    else if t = "sumOf" then summation r
    else if t = "struct" ∧ last ≠ some Opcode.declare.mnemonic then
      match r with
      | name :: Token.lbrace :: rest => structLiteral name rest
      | _                            => .ok ([t], r)
    else .ok ([t], r)

/-- A token that starts no shorthand stands for itself. -/
theorem construct_of_ne {t : Token} (harray : Token.dropEnding? ['[', ']'] t.toList = none)
    (hinsert : t ≠ "insert") (hsum : t ≠ "sumOf") (hstruct : t ≠ "struct") (last : Option Token)
    (r : List Token) : construct last t r = .ok ([t], r) := by
  -- unfolded as a whole: each equation of the definition asks for one construct
  unfold construct
  rw [harray]
  dsimp only
  rw [if_neg hinsert, if_neg hsum, if_neg fun hs => hstruct hs.1]

theorem declaration_length {t kind : Token} {r out rest : List Token}
    (h : declaration t kind r = .ok (out, rest)) : rest.length ≤ r.length := by
  cases r with
  | nil => simp [declaration] at h
  | cons name r =>
    simp only [declaration] at h
    split at h
    · cases h; simp
    · cases h

theorem insertion_length {r out rest : List Token} (h : insertion r = .ok (out, rest)) :
    rest.length ≤ r.length := by
  unfold insertion at h
  split at h
  · split at h
    · cases h; simp; omega
    · cases h
  · cases h

/-- What stands behind a struct is no longer than the tokens behind its opening brace. -/
theorem structLiteral_length {name : Token} {r out rest : List Token}
    (h : structLiteral name r = .ok (out, rest)) : rest.length ≤ r.length := by
  have hl := (List.dropWhile_sublist (l := r) (· != Token.rbrace)).length_le
  unfold structLiteral at h
  split at h
  · cases h
  · next hd =>
    dsimp only at h
    split at h
    · cases h
    · cases h
      rw [hd] at hl
      exact Nat.le_trans (Nat.le_succ _) hl

theorem summation_length {r out rest : List Token} (h : summation r = .ok (out, rest)) :
    rest.length ≤ r.length := by
  unfold summation at h
  split at h
  · cases h
  · split at h
    · cases h; simp
    · split at h
      · cases h
      · cases h; simp

/-- A construct takes at least its first token. -/
theorem construct_length {last : Option Token} {t : Token} {r out rest : List Token}
    (h : construct last t r = .ok (out, rest)) : rest.length ≤ r.length := by
  unfold construct at h
  split at h
  · exact declaration_length h
  · split at h
    · exact insertion_length h
    · split at h
      · exact summation_length h
      · split at h
        · split at h
          · exact Nat.le_trans (structLiteral_length h) (by simp; omega)
          · cases h; exact Nat.le_refl _
        · cases h; exact Nat.le_refl _

/-- Replaces the shorthands behind the token that was written last. -/
def expandFrom (last : Option Token) : List Token → Except CompileError (List Token)
  | []     => .ok []
  | t :: r =>
    match _h : construct last t r with
    | .error e        => .error e
    | .ok (out, rest) =>
      match expandFrom (out.getLast?.or last) rest with
      | .error e => .error e
      | .ok more => .ok (out ++ more)
termination_by tokens => tokens.length
decreasing_by exact Nat.lt_succ_of_le (construct_length _h)

/-- The first construct is replaced, and the rest behind what it was replaced by. -/
theorem expandFrom_cons {last : Option Token} {t : Token} {r out rest : List Token}
    (h : construct last t r = .ok (out, rest)) :
    expandFrom last (t :: r) = (expandFrom (out.getLast?.or last) rest).map (out ++ ·) := by
  rw [expandFrom]
  split
  · next he =>
    rw [h] at he
    cases he
  · next he =>
    rw [h] at he
    cases he
    cases expandFrom (out.getLast?.or last) rest <;> rfl

/-- Replaces every shorthand. -/
def expand (tokens : List Token) : Except CompileError (List Token) :=
  expandFrom none tokens

end Proviso.Sugar
