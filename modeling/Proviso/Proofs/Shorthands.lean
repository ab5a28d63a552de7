import Proviso.Proofs.Numerals
import Proviso.Source.Sugar

/-!
# Programs with shorthands

A program is written as a sequence of items (`Sugar.Item`): tokens that stand for themselves, and
shorthands with their operands. The scan that replaces the shorthands looks at single tokens, at the
tokens behind them, and at the last token that it has written. An operand may be spelled like a
shorthand all the same: whatever the items are, each is replaced by itself. The one word that the
scan could mistake is the name of a declaration, which may not be written out among them.

The proof takes one item at a time, in front of any tokens (`Item.Legal.construct_eq`), and carries
along that the last token written is not that name.

Main statement: `expand_items`.
-/

namespace Proviso.Sugar

/-! ### Items -/

/-- A part of a program as it is written: a token, or a shorthand with its operands. -/
inductive Item where
  | token (t : Token)
  | declaration (kind name : Token)
  | insertion (value name : Token)
  | literal (name : Token) (fields : List (Token × Token))
  | sum (array : Token)
  | fieldSum (array field : Token)

/-- The fields of a struct, each key before its value. -/
def fieldTokens (fields : List (Token × Token)) : List Token :=
  fields.flatMap fun f => [f.1, f.2]

namespace Item

/-- The tokens of an item. -/
def tokens : Item → List Token
  | .token t               => [t]
  | .declaration kind name => [kind ++ "[]", name]
  | .insertion value name  => ["insert", value, "into", name]
  | .literal name fields   =>
      "struct" :: name :: Token.lbrace :: (fieldTokens fields ++ [Token.rbrace])
  | .sum array             => ["sumOf", array]
  | .fieldSum array field  => ["sumOf", array ++ "." ++ field]

/-- What an item stands for. -/
def translation : Item → List Token
  | .token t               => [t]
  | .declaration kind name => ["declareArr", kind, name]
  | .insertion value name  => ["push", value, name]
  | .literal name fields   => "struct" :: name :: (fieldTokens fields ++ ["endStruct"])
  | .sum array             => ["sumOf", array]
  | .fieldSum array field  => ["sumThroughStructs", array, field]

/-- The field that is written behind a dot. -/
def field? : Item → Option Token
  | .fieldSum _ field => some field
  | _                 => none

/-- What may be written. A token is not the start of a shorthand, an array can be declared, a struct
has no braces inside, and a dot has something on either side of it. -/
inductive Legal : Item → Prop where
  | token {t : Token} (not_array : ¬ ['[', ']'] <:+ t.toList)
      (not_word : t ∉ ["insert", "struct", "sumOf"]) : Legal (.token t)
  | declaration {kind name : Token}
      (declarable : kind ∈ ["uint256", "uint", "bool", "address", "bytes32", "struct"]) :
      Legal (.declaration kind name)
  | insertion {value name : Token} : Legal (.insertion value name)
  | literal {name : Token} {fields : List (Token × Token)}
      (flat : ∀ t ∈ fieldTokens fields, t ≠ Token.lbrace ∧ t ≠ Token.rbrace) :
      Legal (.literal name fields)
  | sum {array : Token} (no_dot : '.' ∉ array.toList) : Legal (.sum array)
  | fieldSum {array field : Token} (array_ne : array ≠ "") (no_dot : '.' ∉ array.toList)
      (field_ne : field ≠ "") : Legal (.fieldSum array field)

/-- No token of the item is the name of a declaration, nor is a field behind a dot. -/
structure NoDeclaration (i : Item) : Prop where
  tokens_ne : "declareArr" ∉ i.tokens
  field_ne : i.field? ≠ some "declareArr"

end Item

/-! ### One item -/

/-- Arrays of these kinds can be declared. -/
theorem isDeclarable_of_mem {kind : Token}
    (h : kind ∈ ["uint256", "uint", "bool", "address", "bytes32", "struct"]) :
    isDeclarable kind = true := by
  have hall : ∀ k ∈ ["uint256", "uint", "bool", "address", "bytes32", "struct"],
      isDeclarable k = true := by decide
  exact hall kind h

/-- Each field has two tokens. -/
theorem length_fieldTokens (fields : List (Token × Token)) :
    (fieldTokens fields).length = 2 * fields.length := by
  induction fields with
  | nil => rfl
  | cons f fields ih =>
    show (fieldTokens fields).length + 2 = 2 * (fields.length + 1)
    rw [ih, Nat.mul_succ]

/-- The fields of a struct end at the first closing brace. -/
theorem structLiteral_fieldTokens {name : Token} {fields : List (Token × Token)}
    (h : ∀ t ∈ fieldTokens fields, t ≠ Token.lbrace ∧ t ≠ Token.rbrace) (rest : List Token) :
    structLiteral name (fieldTokens fields ++ Token.rbrace :: rest)
      = .ok ((Item.literal name fields).translation, rest) := by
  have hclose : Token.rbrace ∉ fieldTokens fields := fun hm => (h _ hm).2 rfl
  have hpairs : ¬ ((fieldTokens fields).length % 2 ≠ 0 ∨ Token.lbrace ∈ fieldTokens fields) := by
    rw [length_fieldTokens]
    rintro (hodd | hbrace)
    · omega
    · exact (h _ hbrace).1 rfl
  unfold structLiteral
  rw [takeWhile_bne_append hclose, dropWhile_bne_append hclose]
  exact if_neg hpairs

theorem toList_ne_nil {t : Token} (h : t ≠ "") : t.toList.isEmpty = false := by
  rw [Bool.eq_false_iff, Ne, List.isEmpty_iff, String.toList_eq_nil_iff]
  exact h

namespace Item

/-- One item is replaced by itself, in front of any tokens. Only a struct asks what was written
last. -/
theorem Legal.construct_eq {i : Item} (h : i.Legal) {last : Option Token}
    (hlast : last ≠ some "declareArr") (rest : List Token) :
    ∃ t r, i.tokens ++ rest = t :: r ∧ construct last t r = .ok (i.translation, rest) := by
  cases h with
  | @token t harray hword =>
    have hne : ∀ w ∈ ["insert", "struct", "sumOf"], t ≠ w := fun w hw he => hword (he ▸ hw)
    exact ⟨t, rest, rfl, construct_of_ne (Token.dropEnding?_of_not_suffix harray)
      (hne _ (by decide)) (hne _ (by decide)) (hne _ (by decide)) last rest⟩
  | @declaration kind name hkind =>
    refine ⟨kind ++ "[]", name :: rest, rfl, ?_⟩
    have hends : Token.dropEnding? ['[', ']'] (kind ++ "[]").toList = some kind.toList := by
      rw [String.toList_append]
      exact Token.dropEnding?_append _ _
    unfold construct
    rw [hends]
    dsimp only
    rw [String.ofList_toList, Sugar.declaration, if_pos (isDeclarable_of_mem hkind)]
    rfl
  | insertion => exact ⟨_, _, rfl, rfl⟩
  | @literal name fields hflat =>
    refine ⟨"struct", name :: Token.lbrace :: (fieldTokens fields ++ Token.rbrace :: rest), ?_, ?_⟩
    · simp [tokens]
    have hends : Token.dropEnding? ['[', ']'] "struct".toList = none := by decide
    unfold construct
    rw [hends]
    dsimp only
    rw [if_neg (by decide), if_neg (by decide), if_pos ⟨rfl, hlast⟩]
    exact structLiteral_fieldTokens hflat rest
  | @sum array hdot =>
    refine ⟨"sumOf", array :: rest, rfl, ?_⟩
    show summation (array :: rest) = _
    rw [summation, Token.splitAt?_of_not_mem hdot]
    rfl
  | @fieldSum array field harray hdot hfield =>
    refine ⟨"sumOf", (array ++ "." ++ field) :: rest, rfl, ?_⟩
    have hsplit : Token.splitAt? '.' (array ++ "." ++ field).toList
        = some (array.toList, field.toList) := by
      rw [String.toList_append, String.toList_append, List.append_assoc]
      exact Token.splitAt?_append hdot
    show summation ((array ++ "." ++ field) :: rest) = _
    rw [summation, hsplit]
    dsimp only
    rw [toList_ne_nil harray, toList_ne_nil hfield, String.ofList_toList, String.ofList_toList]
    rfl

/-- What an item is replaced by ends with a word of the item, or closes a struct. -/
theorem NoDeclaration.getLast?_ne {i : Item} (h : i.NoDeclaration) (last : Option Token) :
    i.translation.getLast?.or last ≠ some "declareArr" := by
  obtain ⟨htokens, hfield⟩ := h
  cases i with
  | token t | declaration _ t | insertion _ t | sum t =>
    intro he
    obtain rfl : t = "declareArr" := by simpa [translation] using he
    exact htokens (by simp [tokens])
  | literal name fields => simp [translation, List.getLast?_cons]
  | fieldSum array field => exact hfield

end Item

/-! ### All items -/

/-- Items are replaced one after another, by induction on them; no item leaves a declaration behind
that the next could end. -/
theorem expandFrom_items {items : List Item} (hlegal : ∀ i ∈ items, i.Legal)
    (hdeclares : ∀ i ∈ items, i.NoDeclaration) {last : Option Token}
    (hlast : last ≠ some "declareArr") :
    expandFrom last (items.flatMap Item.tokens) = .ok (items.flatMap Item.translation) := by
  induction items generalizing last with
  | nil =>
    rw [List.flatMap_nil, expandFrom]
    rfl
  | cons i items ih =>
    obtain ⟨hi, hlegal⟩ := List.forall_mem_cons.mp hlegal
    obtain ⟨hd, hdeclares⟩ := List.forall_mem_cons.mp hdeclares
    obtain ⟨t, r, htokens, hconstruct⟩ := hi.construct_eq hlast (items.flatMap Item.tokens)
    rw [List.flatMap_cons, htokens, expandFrom_cons hconstruct,
      ih hlegal hdeclares (hd.getLast?_ne last)]
    rfl

/-- **Shorthands are replaced one by one.** Whatever their names and values are, even spelled like
shorthands, the tokens of a sequence of items are replaced by the translations of the items, in
order, if none of them names a declaration by its opcode. -/
theorem expand_items (items : List Item) (hlegal : ∀ i ∈ items, i.Legal)
    (hdeclares : ∀ i ∈ items, i.NoDeclaration) :
    expand (items.flatMap Item.tokens) = .ok (items.flatMap Item.translation) :=
  expandFrom_items hlegal hdeclares (by simp)

/-- Every operand is spelled like a shorthand or like a part of one. -/
theorem expand_items_named_like_shorthands :
    let items := [Item.declaration "struct" "struct", .literal Token.lbrace [("sumOf", "insert")],
      .insertion "uint[]" "sumOf", .fieldSum "insert" "into.struct", .sum "struct",
      .token Token.lbrace]
    ((∀ i ∈ items, i.Legal) ∧ ∀ i ∈ items, i.NoDeclaration) ∧
    expand ["struct[]", "struct", "struct", Token.lbrace, Token.lbrace, "sumOf", "insert",
        Token.rbrace, "insert", "uint[]", "into", "sumOf", "sumOf", "insert.into.struct", "sumOf",
        "struct", Token.lbrace]
      = .ok ["declareArr", "struct", "struct", "struct", Token.lbrace, "sumOf", "insert",
        "endStruct", "push", "uint[]", "sumOf", "sumThroughStructs", "insert", "into.struct",
        "sumOf", "struct", Token.lbrace] := by
  intro items
  have hlegal : ∀ i ∈ items, i.Legal := by
    simp only [items, List.forall_mem_cons]
    exact ⟨.declaration (by decide), .literal (by decide), .insertion,
      .fieldSum (by decide) (by decide) (by decide), .sum (by decide),
      .token (by decide) (by decide), by simp⟩
  have hdeclares : ∀ i ∈ items, i.NoDeclaration := by
    simp only [items, List.forall_mem_cons]
    refine ⟨?_, ?_, ?_, ?_, ?_, ?_, by simp⟩ <;> exact ⟨by decide, by decide⟩
  exact ⟨⟨hlegal, hdeclares⟩, expand_items items hlegal hdeclares⟩

end Proviso.Sugar
