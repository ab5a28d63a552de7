import Proviso.Proofs.Expression
import Proviso.Proofs.Numerals
import Proviso.Proofs.Straight

/-!
# Atoms of expressions

The values that an expression starts from: decimal numerals, literals behind the name of their type,
variables in local storage, and what the host says about block and message. Each is written as a few
tokens, reaches the assembler as a few tokens, and is read as one instruction.
-/

namespace Proviso

/-! ### Names of opcodes -/

theorem Opcode.mem_all (op : Opcode) : op ∈ all := by
  cases op with
  | compare c | connect c | compute c | set c | literal c | read c => cases c <;> decide
  | _ => decide

/-- No two opcodes have the same name. -/
theorem Opcode.ofMnemonic?_mnemonic (op : Opcode) : ofMnemonic? op.mnemonic = some op := by
  have h : ∀ op ∈ all, ofMnemonic? op.mnemonic = some op := by decide +kernel
  exact h op op.mem_all

theorem Opcode.mnemonic_inj {op op' : Opcode} (h : op.mnemonic = op'.mnemonic) : op = op' := by
  have hop := op.ofMnemonic?_mnemonic
  rw [h, op'.ofMnemonic?_mnemonic] at hop
  exact (Option.some.inj hop).symm

namespace Registry

/-- The standard registry knows the names of the opcodes and no others. -/
theorem byName?_standard (name : String) :
    standard.byName? name = (Opcode.ofMnemonic? name).map .ofOpcode := by
  rw [byName?, standard, List.find?_map, Opcode.ofMnemonic?]
  rfl

/-- No name of an opcode is an alias. -/
theorem resolveAlias_mnemonic (op : Opcode) : resolveAlias op.mnemonic = op.mnemonic := by
  have h : ∀ op ∈ Opcode.all, resolveAlias op.mnemonic = op.mnemonic := by decide +kernel
  exact h op op.mem_all

theorem lookup?_mnemonic (op : Opcode) : standard.lookup? op.mnemonic = some (.ofOpcode op) := by
  rw [lookup?, resolveAlias_mnemonic, byName?_standard, Opcode.ofMnemonic?_mnemonic]
  rfl

/-- An opcode with a precedence is an operator under its name. -/
theorem operator?_mnemonic (op : Opcode) (h : op.form.precedence?.isSome = true) :
    standard.operator? op.mnemonic = some op.form := by
  rw [operator?, lookup?_mnemonic]
  exact if_pos h

/-- A token that names no opcode is no operator. -/
theorem operator?_of_lookup? {reg : Registry} {t : Token} (h : reg.lookup? t = none) :
    reg.operator? t = none := by
  rw [operator?, h]
  rfl

/-- A token that names no opcode is no statement. -/
theorem isStatement_of_lookup? {reg : Registry} {t : Token} (h : reg.lookup? t = none) :
    reg.isStatement t = false := by
  rw [isStatement, h]

/-- No opcode has a numeral as its name. -/
theorem lookup?_of_isNumeric {t : Token} (h : Token.isNumeric t = true) :
    standard.lookup? t = none := by
  have hall : ∀ op ∈ Opcode.all, Token.isNumeric op.mnemonic = false := by decide +kernel
  have hu : t ≠ "uint" := by
    rintro rfl
    exact absurd h (by decide)
  have hn : Opcode.ofMnemonic? t = none := by
    rw [Opcode.ofMnemonic?, List.find?_eq_none]
    intro op hop he
    have hf := hall op hop
    rw [eq_of_beq he, h] at hf
    cases hf
  rw [lookup?, resolveAlias, if_neg hu, byName?_standard, hn]
  rfl

end Registry

/-- The standard registry has every operator. -/
theorem Tree.known_standard {α : Type} (e : Tree α) : e.Known .standard := by
  induction e with
  | atom a => trivial
  | negation e ih => exact ⟨Registry.operator?_mnemonic .not rfl, ih⟩
  | binary op lhs rhs ihl ihr =>
    refine ⟨?_, ihl, ihr⟩
    rcases op with c | c | c <;> cases c <;> exact Registry.operator?_mnemonic _ rfl

/-! ### Tokens of atoms -/

namespace Token

/-- A token that every pass from the postfix order on leaves where it is. -/
structure Stays (t : Token) : Prop where
  inert : Postfix.Inert .standard t
  plain : t.IsPlain

instance (t : Token) : Decidable t.Stays :=
  decidable_of_iff
    ((t ≠ "(" ∧ t ≠ ")" ∧ Registry.standard.operator? t = none ∧
      Postfix.isBoundary .standard t none = false) ∧
      dropEnding? ['[', ']'] t.toList = none ∧ t ∉ constructWords)
    ⟨fun ⟨⟨h₁, h₂, h₃, h₄⟩, h₅, h₆⟩ => ⟨⟨h₁, h₂, h₃, h₄⟩, ⟨h₅, h₆⟩⟩,
      fun ⟨⟨h₁, h₂, h₃, h₄⟩, ⟨h₅, h₆⟩⟩ => ⟨⟨h₁, h₂, h₃, h₄⟩, h₅, h₆⟩⟩

/-- Brackets, and the words of constructs that are no opcodes. -/
def reserved : List Token :=
  ["(", ")", Token.lbrace, Token.rbrace, "branch", "insert", "endf"]

/-- A token stays if it names no opcode, is not reserved and does not end like an array. -/
theorem stays_of_lookup? {t : Token} (hl : Registry.standard.lookup? t = none)
    (hr : t ∉ reserved) (ha : dropEnding? ['[', ']'] t.toList = none) : t.Stays := by
  have hne : ∀ w ∈ reserved, t ≠ w := fun w hw he => hr (he ▸ hw)
  have hb : Postfix.boundaryWords.contains t = false := by
    have hall : ∀ w ∈ Postfix.boundaryWords, w ∈ reserved := by decide
    rw [← Bool.not_eq_true, List.contains_iff_mem]
    exact fun hm => hr (hall t hm)
  have hw : t ∉ constructWords := by
    have hall : ∀ w ∈ constructWords,
        w ∈ reserved ∨ (Registry.standard.lookup? w).isSome = true := by decide +kernel
    intro hm
    rcases hall t hm with h | h
    · exact hr h
    · rw [hl] at h
      cases h
  refine ⟨⟨hne _ (by decide), hne _ (by decide), Registry.operator?_of_lookup? hl, ?_⟩, ⟨ha, hw⟩⟩
  rw [Postfix.isBoundary, hb, ha, Registry.isStatement_of_lookup? hl]
  rfl

/-- A numeric token stays as it is in all stages behind the one for numerals. -/
theorem stays_of_isNumeric {t : Token} (hn : isNumeric t = true) (hb : ']' ∉ t.toList) :
    t.Stays := by
  refine stays_of_lookup? (Registry.lookup?_of_isNumeric hn) (fun hr => ?_) ?_
  · have hall : ∀ w ∈ reserved, isNumeric w = false := by decide
    rw [hall t hr] at hn
    cases hn
  · exact dropEnding?_of_getLast? (by decide) fun he => hb (List.mem_of_getLast? he)

/-- A name that a variable can have: it is no numeral and no name of an opcode, it is not reserved,
and it does not end like an array. -/
structure IsVariable (t : Token) : Prop where
  not_numeric : isNumeric t = false
  not_opcode : Opcode.ofMnemonic? t = none
  not_reserved : t ∉ reserved
  not_array : dropEnding? ['[', ']'] t.toList = none

/-- The name of a variable stays as it is. -/
theorem IsVariable.stays {t : Token} (h : t.IsVariable) : t.Stays := by
  by_cases hu : t = "uint"
  · subst hu
    decide
  · refine stays_of_lookup? ?_ h.not_reserved h.not_array
    rw [Registry.lookup?, Registry.resolveAlias, if_neg hu, Registry.byName?_standard,
      h.not_opcode]
    rfl

end Token

/-! ### Atoms -/

/-- The names of the types that a variable can be read as. -/
def typeNames : List (Token × ValueKind) :=
  [("uint256", .uint256), ("uint", .uint256), ("bool", .bool), ("address", .address),
   ("bytes32", .bytes32), ("string", .string)]

/-- The opcode name by which a program reads a value of its surroundings. -/
def Reading.token : Reading → Token
  | .blockNumber    => "blockNumber"
  | .blockTimestamp => "blockTimestamp"
  | .chainId        => "blockChainId"
  | .sender         => "msgSender"
  | .value          => "msgValue"

/-- An atom as a program writes it, with what it stands for. -/
inductive Atom where
  /-- A decimal numeral, perhaps with a unit; its exponent, if it has one, is below `2 ^ 64`. -/
  | number (p : Numeral.Parts) (s : Numeral.Suffix) (v : UInt256) (hp : p.power < UInt64.size)
      (hv : p.Denotes s v)
  | flag (b : Bool)
  | account (t : Token) (a : Address) (ht : Hex.IsNumeralOf t a.bytes)
  | word (t : Token) (w : Word) (ht : Hex.IsNumeralOf t w.bytes)
  /-- A variable in local storage, read as a value of a type. -/
  | stored (type : Token) (kind : ValueKind) (name : Token) (hk : (type, kind) ∈ typeNames)
      (hn : name.IsVariable)
  | reading (r : Reading)

namespace Atom

/-- The tokens of an atom in a program. -/
def tokens : Atom → List Token
  | .number p s _ _ _          => p.tokens s
  | .flag b                    => ["bool", if b then "true" else "false"]
  | .account t _ _             => ["address", t]
  | .word t _ _                => ["bytes32", t]
  | .stored type _ name _ _    => ["loadLocal", type, name]
  | .reading r                 => [r.token]

/-- The tokens of an atom once numerals are plain. -/
def plainTokens : Atom → List Token
  | .number _ _ v _ _ => [v.toDecimal]
  | a                 => a.tokens

/-- The instruction that an atom is read as. -/
def instr : Atom → Instr Token
  | .number _ _ v _ _          => ⟨.literal .integer, (v, ())⟩
  | .flag b                    => ⟨.literal .flag, (b, ())⟩
  | .account _ a _             => ⟨.literal .account, (a, ())⟩
  | .word _ w _                => ⟨.literal .word, (w, ())⟩
  | .stored _ kind name _ _    => ⟨.loadLocal, (kind, Slot.ofName name, ())⟩
  | .reading r                 => ⟨.read r, ()⟩

/-- Bytes of that instruction. -/
def size : Atom → Nat
  | .number .. => 33
  | .flag ..   => 2
  | .account .. => 21
  | .word ..   => 33
  | .stored .. => 6
  | .reading .. => 1

theorem size_instr (a : Atom) : a.instr.size = a.size := by
  cases a <;> rfl

/-- An atom is one instruction that leads to the next. -/
theorem isStraight_instr (a : Atom) : a.instr.IsStraight := by
  cases a <;> exact ⟨rfl, by rintro ⟨⟩⟩

/-- The tokens of an atom stay as they are once its numeral is replaced. -/
theorem stays_plainTokens (a : Atom) : ∀ t ∈ a.plainTokens, t.Stays := by
  cases a with
  | number p s v hp hv =>
    intro t ht
    rw [List.mem_singleton.mp ht]
    exact Token.stays_of_isNumeric v.isNumeric_toDecimal
      (not_mem_of_isDigit v.isDigit_toDecimal (by decide))
  | flag b => cases b <;> decide +kernel
  | account t a ht =>
    have hhex := Token.stays_of_isNumeric ht.isNumeric (ht.not_mem (by decide) (by decide))
    exact List.forall_mem_cons.mpr ⟨by decide +kernel, List.forall_mem_singleton.mpr hhex⟩
  | word t w ht =>
    have hhex := Token.stays_of_isNumeric ht.isNumeric (ht.not_mem (by decide) (by decide))
    exact List.forall_mem_cons.mpr ⟨by decide +kernel, List.forall_mem_singleton.mpr hhex⟩
  | stored type kind name hk hn =>
    have htype : ∀ x ∈ typeNames, x.1.Stays := by decide +kernel
    exact List.forall_mem_cons.mpr ⟨by decide +kernel,
      List.forall_mem_cons.mpr ⟨htype _ hk, List.forall_mem_singleton.mpr hn.stays⟩⟩
  | reading r => cases r <;> decide +kernel

/-- Numerals become plain, and the other tokens of an atom stay. -/
theorem normalize_tokens (a : Atom) {r : List Token}
    (hr : r.head?.bind Numeral.unitExponent? = none) :
    Numeral.normalize (a.tokens ++ r) = (Numeral.normalize r).map (a.plainTokens ++ ·) := by
  cases a with
  | number p s v hp hv => exact p.normalize_tokens hp hv hr
  | flag b =>
    have hb : Token.isNumeric (if b then "true" else "false") = false := by cases b <;> decide
    show Numeral.normalize ("bool" :: _ :: r) = _
    rw [Numeral.normalize_of_not_numeric (by decide), Numeral.normalize_of_not_numeric hb]
    cases Numeral.normalize r <;> rfl
  | account t a ht =>
    show Numeral.normalize ("address" :: t :: r) = _
    rw [Numeral.normalize_of_not_numeric (by decide),
      Numeral.normalize_cons (ht.canonical (.inl a.length_bytes) _)]
    cases Numeral.normalize r <;> rfl
  | word t w ht =>
    show Numeral.normalize ("bytes32" :: t :: r) = _
    rw [Numeral.normalize_of_not_numeric (by decide),
      Numeral.normalize_cons (ht.canonical (.inr w.length_bytes) _)]
    cases Numeral.normalize r <;> rfl
  | stored type kind name hk hn =>
    have htype : ∀ x ∈ typeNames, Token.isNumeric x.1 = false := by decide
    show Numeral.normalize ("loadLocal" :: type :: name :: r) = _
    rw [Numeral.normalize_of_not_numeric (by decide),
      Numeral.normalize_of_not_numeric (htype _ hk),
      Numeral.normalize_of_not_numeric hn.not_numeric]
    cases Numeral.normalize r <;> rfl
  | reading q =>
    have hq : Token.isNumeric q.token = false := by cases q <;> decide
    exact Numeral.normalize_of_not_numeric hq r

end Atom

/-! ### Reading atoms -/

namespace TokenReader

variable {reg : Registry} {e : Entry}

theorem reading_of_some {α : Type} {k : OperandKind} {read? : Token → Option α} {t : Token} {a : α}
    (h : read? t = some a) (r : List Token) : reading e k read? (t :: r) = (.ok a, r) := by
  show Act.orFail (invalid e k t) (read? t) r = _
  rw [h]
  rfl

/-- Operands are read one after another. -/
theorem operands_cons {p : Param} {ps : List Param} {a : Operand Token p.kind}
    {as : Operands Token ps} {ts r r' : List Token} (h : operand reg e p.kind ts = (.ok a, r))
    (hs : operands reg e ps r = (.ok as, r')) :
    operands reg e (p :: ps) ts = (.ok (a, as), r') := by
  rw [operands, Act.bind_of_ok h, Act.bind_of_ok hs]
  rfl

/-- An opcode's name and its operands are read as an instruction. -/
theorem instr_of_operands (op : Opcode) {as : Operands Token op.params} {ts r : List Token}
    (h : operands .standard (.ofOpcode op) op.params ts = (.ok as, r)) :
    instr .standard op.mnemonic ts = (.ok ⟨op, as⟩, r) := by
  have hn : ∀ op ∈ Opcode.all, Token.isNumeric op.mnemonic = false := by decide +kernel
  rw [instr, hn op op.mem_all, if_neg Bool.false_ne_true, Registry.lookup?_mnemonic]
  exact Act.bind_of_ok h _

/-- The name of an opcode with its operands is read as one instruction. -/
theorem Reads.of_operands (op : Opcode) {as : Operands Token op.params} {ts : List Token}
    (h : ∀ r, operands .standard (.ofOpcode op) op.params (ts ++ r) = (.ok as, r))
    (hc : op ≠ .close) : Reads .standard (op.mnemonic :: ts) [⟨op, as⟩] :=
  Reads.of_instr (fun r => instr_of_operands op (h r)) hc

end TokenReader

/-- The decimal digits of an integer are read as the integer. -/
theorem Literal.ofToken?_toDecimal (v : UInt256) : ofToken? v.toDecimal = some (.integer v) := by
  have hd : Hex.digits? v.toDecimal.toList = none :=
    Hex.digits?_of_not_mem ⟨not_mem_of_isDigit v.isDigit_toDecimal (by decide),
      not_mem_of_isDigit v.isDigit_toDecimal (by decide)⟩
  have hnone : ∀ n, (Octets.ofHex? v.toDecimal : Option (Octets n)) = none := by
    intro n
    rw [Octets.ofHex?, hd]
    rfl
  rw [ofToken?, hnone, hnone, v.ofDecimal?_toDecimal]
  rfl

open TokenReader in
/-- The tokens of an atom are read as its instruction. -/
theorem Atom.reads_plainTokens (a : Atom) : Reads .standard a.plainTokens [a.instr] := by
  cases a with
  | number p s v hp hv =>
    refine Reads.of_instr (fun r => ?_) (by rintro ⟨⟩)
    rw [TokenReader.instr, if_pos v.isNumeric_toDecimal, Literal.ofToken?_toDecimal]
    rfl
  | flag b =>
    have hb : flag? (if b then "true" else "false") = some b := by cases b <;> decide
    exact Reads.of_operands (.literal .flag)
      (fun r => operands_cons (reading_of_some hb r) rfl) (by rintro ⟨⟩)
  | account t a ht =>
    exact Reads.of_operands (.literal .account)
      (fun r => operands_cons (reading_of_some ht.ofHex? r) rfl) (by rintro ⟨⟩)
  | word t w ht =>
    exact Reads.of_operands (.literal .word)
      (fun r => operands_cons (reading_of_some ht.ofHex? r) rfl) (by rintro ⟨⟩)
  | stored type kind name hk hn =>
    have hall : ∀ x ∈ typeNames,
        (ValueKind.ofName? x.1).filter Opcode.loadLocal.variants.contains = some x.2 := by decide
    have hkind : ∀ r, operand .standard (.ofOpcode .loadLocal) .variant (type :: r)
        = (.ok kind, r) := by
      intro r
      show Act.orFail _ ((ValueKind.ofName? type).filter Opcode.loadLocal.variants.contains) r = _
      rw [hall _ hk]
      rfl
    exact Reads.of_operands .loadLocal (fun r => operands_cons (hkind _) (operands_cons rfl rfl))
      (by rintro ⟨⟩)
  | reading q =>
    have hq : q.token = (Opcode.read q).mnemonic := by cases q <;> rfl
    show Reads .standard [q.token] [⟨.read q, ()⟩]
    rw [hq]
    exact Reads.of_operands (.read q) (fun r => rfl) (by rintro ⟨⟩)

end Proviso
