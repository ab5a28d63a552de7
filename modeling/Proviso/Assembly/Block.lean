import Proviso.Act
import Proviso.Assembly.Literal
import Proviso.CompileError
import Proviso.Instr
import Proviso.Registry

/-!
# Reading instructions from tokens

An instruction is a name of the registry followed by its operands; a numeral in its place pushes a
literal. The instructions up to the first `end` are the main block, and each further block is a
body behind its label.
-/

namespace Proviso

/-- Reads tokens from the front of a list. -/
abbrev TokenReader := Act CompileError (List Token)

namespace TokenReader

/-- The next token, which an operand of `e` needs. -/
def next (e : Entry) : TokenReader Token := fun ts =>
  match ts with
  | []     => (.error (.missingArgument e.name), [])
  | t :: r => (.ok t, r)

/-- The complaint about an operand that is not what its kind asks for. -/
def invalid (e : Entry) (k : OperandKind) (t : Token) : CompileError :=
  .invalidOperand e.name k.describe t

/-- A name as a word. -/
def nameWord (t : Token) : Except CompileError Word :=
  match Word.ofText? t with
  | some w => .ok w
  | none   => .error (.nameTooLong t)

/-- A value with its kind: a flag, a literal, or else a text of the kind `textKind`. -/
def valueOf (e : Entry) (textKind : ValueKind) (t : Token) :
    Except CompileError (ValueKind × Word) :=
  if t = "true" then .ok (.bool, .ofBool true)
  else if t = "false" then .ok (.bool, .ofBool false)
  else if Token.isNumeric t then
    match Literal.ofToken? t with
    | some l => .ok (l.kind, l.toWord)
    | none   => .error (invalid e .value t)
  else (nameWord t).map fun w => (textKind, w)

/-- Whether a token ends the fields of a struct. -/
def endsStruct (reg : Registry) (t : Token) : Bool :=
  match reg.lookup? t with
  | some e => e.opcode == .endStruct
  | none   => false

/-- The most fields that one struct instruction can have. -/
def maxFields : Nat := 255

/-- The fields of a struct up to the token that ends them, which stays; no more than `room`. -/
def fieldsOf (reg : Registry) (e : Entry) (owner : Token) (room : Nat) :
    List Token → Except CompileError (List Field) × List Token
  | []  => (.error (.missingArgument e.name), [])
  | [t] =>
    if endsStruct reg t then (.ok [], [t])
    else if room = 0 then (.error (.malformedSugar "struct" t), [])
    else (.error (.missingArgument e.name), [])
  | t :: v :: r =>
    if endsStruct reg t then (.ok [], t :: v :: r)
    else if room = 0 then (.error (.malformedSugar "struct" t), v :: r)
    else
      match valueOf e .string v with
      | .error err  => (.error err, r)
      | .ok (k, w)  =>
        match fieldsOf reg e owner (room - 1) r with
        | (.error err, rest) => (.error err, rest)
        | (.ok fs, rest)     => (.ok (⟨.field owner t, k, w⟩ :: fs), rest)

/-- Whether a token cannot be a label, because it is a numeral or names an opcode. -/
def isTaken (reg : Registry) (t : Token) : Bool :=
  Token.isNumeric t || (reg.lookup? t).isSome

/-- An operand that has to read as one of its kind. -/
def reading {α : Type} (e : Entry) (k : OperandKind) (read? : Token → Option α) :
    TokenReader α := do
  let t ← next e
  Act.orFail (invalid e k t) (read? t)

/-- The flag that a token spells. -/
def flag? (t : Token) : Option Bool :=
  if t = "true" then some true else if t = "false" then some false else none

/-- Reads an operand of one kind for the opcode of the entry `e`. -/
def operand (reg : Registry) (e : Entry) : (k : OperandKind) → TokenReader (Operand Token k)
  | .variant => do
    let t ← next e
    Act.orFail (.invalidVariant e.name t)
      ((ValueKind.ofName? t).filter e.opcode.variants.contains)
  | .slot => do return Slot.ofName (← next e)
  | .int => reading e .int UInt256.ofDecimal?
  | .flag => reading e .flag flag?
  | .account => reading e .account Octets.ofHex?
  | .word => reading e .word Octets.ofHex?
  | .label => reading e .label fun t => if isTaken reg t then none else some t
  | .name => do Act.lift (nameWord (← next e))
  | .value => do Act.lift (valueOf e .struct (← next e))
  | .fields => do
    let owner ← next e
    let _ ← Act.lift (nameWord owner)
    fieldsOf reg e owner maxFields

/-- Reads the operands of an opcode, one after another. -/
def operands (reg : Registry) (e : Entry) : (ps : List Param) → TokenReader (Operands Token ps)
  | []      => return ()
  | p :: ps => do
    let a ← operand reg e p.kind
    let as ← operands reg e ps
    return (a, as)

/-- The instruction that a numeral stands for. -/
def literalInstr : Literal → Instr Token
  | .account a => ⟨.literal .account, (a, ())⟩
  | .word w    => ⟨.literal .word, (w, ())⟩
  | .integer v => ⟨.literal .integer, (v, ())⟩

/-- The instruction that starts with `t`. -/
def instr (reg : Registry) (t : Token) : TokenReader (Instr Token) :=
  if Token.isNumeric t then
    Act.orFail (.unknownCommand t) ((Literal.ofToken? t).map literalInstr)
  else
    match reg.lookup? t with
    | none   => Act.fail (.unknownCommand t)
    | some e => do
      let as ← operands reg e e.opcode.params
      return ⟨e.opcode, as⟩

/-! ### Tokens are used up -/

variable {α β : Type}

/-- The reader leaves no more tokens than it finds. -/
def Shrinks (x : TokenReader α) : Prop :=
  ∀ ts, (x ts).2.length ≤ ts.length

theorem Shrinks.pure (a : α) : Shrinks (pure a) :=
  fun _ => Nat.le_refl _

theorem Shrinks.fail (e : CompileError) : Shrinks (Act.fail e : TokenReader α) :=
  fun _ => Nat.le_refl _

theorem Shrinks.orFail (e : CompileError) (o : Option α) :
    Shrinks (Act.orFail e o : TokenReader α) := by
  cases o with
  | none   => exact .fail e
  | some a => exact .pure a

theorem Shrinks.lift (r : Except CompileError α) : Shrinks (Act.lift r : TokenReader α) := by
  cases r with
  | error e => exact .fail e
  | ok a    => exact .pure a

/-- Two readers one after the other shrink what is left if each does. -/
theorem Shrinks.bind {x : TokenReader α} {f : α → TokenReader β} (hx : Shrinks x)
    (hf : ∀ a, Shrinks (f a)) : Shrinks (x >>= f) := by
  intro ts
  have h := hx ts
  rw [Act.bind_apply]
  rcases hrun : x ts with ⟨_ | a, ts'⟩
  · rwa [hrun] at h
  · rw [hrun] at h
    exact Nat.le_trans (hf a ts') h

theorem shrinks_next (e : Entry) : Shrinks (next e) := by
  intro ts
  cases ts with
  | nil      => exact Nat.le_refl _
  | cons t r => exact Nat.le_succ _

theorem shrinks_reading (e : Entry) (k : OperandKind) (read? : Token → Option α) :
    Shrinks (reading e k read?) :=
  (shrinks_next e).bind fun _ => .orFail _ _

/-- Fields are read while there is room, by induction on it. -/
theorem shrinks_fieldsOf (reg : Registry) (e : Entry) (owner : Token) (room : Nat) :
    Shrinks (fieldsOf reg e owner room) := by
  intro ts
  fun_induction fieldsOf reg e owner room ts with
  | case1 | case2 | case3 | case4 | case5 => simp
  | case6 => simp
  | case7 => simp; omega
  | case8 room t v r _ _ k w _ err rest heq ih =>
    rw [heq] at ih
    simp only [List.length_cons] at ih ⊢
    omega
  | case9 room t v r _ _ k w _ fs rest heq ih =>
    rw [heq] at ih
    simp only [List.length_cons] at ih ⊢
    omega

theorem shrinks_operand (reg : Registry) (e : Entry) (k : OperandKind) :
    Shrinks (operand reg e k) := by
  cases k with
  | variant => exact (shrinks_next e).bind fun _ => .orFail _ _
  | slot => exact (shrinks_next e).bind fun _ => .pure _
  | int | flag | account | word | label => exact shrinks_reading e _ _
  | name => exact (shrinks_next e).bind fun _ => .lift _
  | value => exact (shrinks_next e).bind fun _ => .lift _
  | fields =>
    exact (shrinks_next e).bind fun owner => (Shrinks.lift _).bind fun _ =>
      shrinks_fieldsOf reg e owner maxFields

theorem shrinks_operands (reg : Registry) (e : Entry) (ps : List Param) :
    Shrinks (operands reg e ps) := by
  induction ps with
  | nil => exact .pure _
  | cons p ps ih => exact (shrinks_operand reg e p.kind).bind fun _ => ih.bind fun _ => .pure _

/-- An instruction takes its operands from the front. -/
theorem shrinks_instr (reg : Registry) (t : Token) : Shrinks (instr reg t) := by
  rw [instr]
  split
  · exact .orFail _ _
  · split
    · exact .fail _
    · exact (shrinks_operands reg _ _).bind fun _ => .pure _

/-! ### Blocks -/

/-- The instructions up to the first `end`, or up to the last token. -/
def block (reg : Registry) : List Token → Except CompileError (List (Instr Token)) × List Token
  | []     => (.ok [], [])
  | t :: r =>
    match _h : instr reg t r with
    | (.error e, rest) => (.error e, rest)
    | (.ok i, rest)    =>
      if i.opcode = .close then (.ok [i], rest)
      else
        match block reg rest with
        | (.error e, rest') => (.error e, rest')
        | (.ok is, rest')   => (.ok (i :: is), rest')
termination_by ts => ts.length
decreasing_by
  have hs := shrinks_instr reg t r
  rw [_h] at hs
  exact Nat.lt_succ_of_le hs

/-- The tokens behind a block are no more than those before it. -/
theorem shrinks_block (reg : Registry) : Shrinks (block reg) := by
  intro ts
  fun_induction block reg ts with
  | case1 => exact Nat.le_refl _
  | case2 t r e rest h | case3 t r i rest h _ =>
    have hs := shrinks_instr reg t r
    rw [h] at hs
    exact Nat.le_succ_of_le hs
  | case4 t r i rest h _ e rest' heq ih | case5 t r i rest h _ is rest' heq ih =>
    have hs := shrinks_instr reg t r
    rw [h] at hs
    rw [heq] at ih
    exact Nat.le_succ_of_le (Nat.le_trans ih hs)

end TokenReader

/-- A program that is still to be linked: a main block, and bodies under their labels. -/
structure Assembly where
  main : List (Instr Token)
  bodies : List (Token × List (Instr Token))

namespace Assembly

open TokenReader in
/-- The bodies, each behind a label. -/
def bodiesOf (reg : Registry) :
    List Token → Except CompileError (List (Token × List (Instr Token)))
  | []         => .ok []
  | label :: r =>
    if isTaken reg label then
      .error (.unexpectedToken label "after end, expected a body label")
    else
      match _h : block reg r with
      | (.error e, _)  => .error e
      | (.ok is, rest) =>
        match bodiesOf reg rest with
        | .error e => .error e
        | .ok bs   => .ok ((label, is) :: bs)
termination_by ts => ts.length
decreasing_by
  have hs := shrinks_block reg r
  rw [_h] at hs
  exact Nat.lt_succ_of_le hs

/-- The main block and the bodies of a list of tokens. -/
def ofTokens (reg : Registry) (tokens : List Token) : Except CompileError Assembly :=
  match TokenReader.block reg tokens with
  | (.error e, _)    => .error e
  | (.ok main, rest) => (bodiesOf reg rest).map fun bs => ⟨main, bs⟩

end Assembly

end Proviso
