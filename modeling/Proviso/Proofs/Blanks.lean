import Proviso.Proofs.Conversion
import Proviso.Proofs.Grammar
import Proviso.Proofs.Hoisting
import Proviso.Proofs.Numerals
import Proviso.Proofs.Words
import Proviso.Source.Compile

/-!
# No blanks in tokens

A text is cut at its blanks, so no token has one, and none gets one on the way to the assembly: each
pass keeps tokens, takes parts of them, or adds words and numbers of its own. What is read from such
tokens is legible: a name is a word whose text has no blank, and a value is the word that its kind
makes of it.

Main statements: `unspaced_preprocess` for the tokens, `Assembly.legible_ofTokens` for what is read
from them.
-/

namespace Proviso

/-! ### Tokens -/

/-- A text without a blank in it. -/
def Unspaced (t : String) : Prop :=
  ' ' ∉ t.toList

instance (t : String) : Decidable (Unspaced t) :=
  inferInstanceAs (Decidable (¬ _))

theorem Unspaced.append {s t : String} (hs : Unspaced s) (ht : Unspaced t) : Unspaced (s ++ t) := by
  rw [Unspaced, String.toList_append, List.mem_append, not_or]
  exact ⟨hs, ht⟩

/-- A part of a text without blanks has none. -/
theorem Unspaced.part {t : String} (ht : Unspaced t) {cs : List Char} (hcs : cs ⊆ t.toList) :
    Unspaced (String.ofList cs) := by
  rw [Unspaced, String.toList_ofList]
  exact fun hb => ht (hcs hb)

/-- Digits are no blanks. -/
theorem unspaced_of_isDigit {t : String} (h : ∀ c ∈ t.toList, isDigit c = true) : Unspaced t :=
  not_mem_of_isDigit h (by decide)

theorem unspaced_repr (n : Nat) : Unspaced (Nat.repr n) :=
  unspaced_of_isDigit (isDigit_repr n)

theorem Opcode.unspaced_mnemonic (op : Opcode) : Unspaced op.mnemonic := by
  have h : ∀ op ∈ all, Unspaced op.mnemonic := by decide +kernel
  exact h op op.mem_all

/-! ### One pass after another -/

/-- If two stages succeed, the first does, and the second on its result. -/
theorem exists_of_bind_eq_ok {ε α β : Type} {x : Except ε α} {f : α → Except ε β} {b : β}
    (h : (do f (← x)) = .ok b) : ∃ a, x = .ok a ∧ f a = .ok b := by
  cases x with
  | error e => cases h
  | ok a => exact ⟨a, rfl, h⟩

section Passes

variable {t : Token} {ts r out rest : List Token}

/-- A token has no blanks: the text was cut at them. -/
theorem unspaced_tokenize {text : String} (h : Token.tokenize text = .ok ts) :
    ∀ t ∈ ts, Unspaced t := by
  intro t ht hb
  have hs := (Token.isShown_of_tokenize h t ht).not_separator ' ' hb
  revert hs
  decide

namespace Numeral

theorem unspaced_canonical {u : Token} {next : Option Token} {used : Bool}
    (h : canonical t next = .ok (u, used)) (ht : Unspaced t) : Unspaced u := by
  unfold canonical at h
  split at h
  · cases h
    exact ht
  · split at h
    · split at h
      · cases h
        exact ht
      · cases h
    · dsimp only at h
      split at h
      · cases h
        exact unspaced_repr _
      · cases h

/-- The stages before assembly keep blanks out of the tokens: numerals become digits. -/
theorem unspaced_normalize (h : normalize ts = .ok out) (hts : ∀ t ∈ ts, Unspaced t) :
    ∀ t ∈ out, Unspaced t := by
  -- a unit goes with its numeral, so the tokens left need not be the tail
  induction hn : ts.length using Nat.strongRecOn generalizing ts out with
  | ind n ih =>
    cases ts with
    | nil =>
      cases h
      exact hts
    | cons t r =>
      obtain ⟨ht, hr⟩ := List.forall_mem_cons.mp hts
      rw [normalize_cons_eq] at h
      obtain ⟨⟨u, used⟩, hu, h⟩ := exists_of_bind_eq_ok h
      obtain ⟨us, hus, h⟩ := exists_of_bind_eq_ok h
      cases h
      refine List.forall_mem_cons.mpr ⟨unspaced_canonical hu ht, ih _ ?_ hus ?_ rfl⟩
      · subst hn
        split
        · rw [List.length_tail, List.length_cons]
          omega
        · exact Nat.lt_succ_self _
      · split
        · exact fun t ht => hr t (List.mem_of_mem_tail ht)
        · exact hr

end Numeral

/-- Postfix order only moves tokens. -/
theorem Postfix.unspaced_convert {reg : Registry} (h : convert reg ts = .ok out)
    (hts : ∀ t ∈ ts, Unspaced t) : ∀ t ∈ out, Unspaced t := by
  have ho : Outcome reg [] ts (.ok out) := by
    rw [← h]
    exact outcome_convertFrom ts (by simp [tokensOf])
  cases ho with
  | done _ _ hperm =>
    intro t ht
    exact hts t (List.mem_filter.mp (hperm.subset ht)).1

/-- The tokens up to one that ends a construct, and those behind it. -/
theorem unspaced_span {p : Token → Bool} (hr : ∀ t ∈ r, Unspaced t)
    (hd : r.dropWhile p = t :: rest) :
    (∀ t ∈ r.takeWhile p, Unspaced t) ∧ ∀ t ∈ rest, Unspaced t := by
  rw [← List.takeWhile_append_dropWhile (p := p) (l := r), hd, List.forall_mem_append,
    List.forall_mem_cons] at hr
  exact ⟨hr.1, hr.2.2⟩

namespace Sugar

theorem unspaced_declaration {kind : Token} (h : declaration t kind r = .ok (out, rest))
    (hk : Unspaced kind) (hr : ∀ t ∈ r, Unspaced t) : ∀ t ∈ out ++ rest, Unspaced t := by
  unfold declaration at h
  split at h
  · split at h
    · cases h
      obtain ⟨hname, hr⟩ := List.forall_mem_cons.mp hr
      simp only [List.forall_mem_append, List.forall_mem_cons]
      exact ⟨⟨Opcode.unspaced_mnemonic _, hk, hname, List.forall_mem_nil _⟩, hr⟩
    · cases h
  · cases h

theorem unspaced_insertion (h : insertion r = .ok (out, rest)) (hr : ∀ t ∈ r, Unspaced t) :
    ∀ t ∈ out ++ rest, Unspaced t := by
  unfold insertion at h
  split at h
  · split at h
    · cases h
      simp only [List.forall_mem_append, List.forall_mem_cons] at hr ⊢
      obtain ⟨hvalue, -, hname, hr⟩ := hr
      exact ⟨⟨Opcode.unspaced_mnemonic _, hvalue, hname, List.forall_mem_nil _⟩, hr⟩
    · cases h
  · cases h

theorem unspaced_structLiteral {name : Token} (h : structLiteral name r = .ok (out, rest))
    (hn : Unspaced name) (hr : ∀ t ∈ r, Unspaced t) : ∀ t ∈ out ++ rest, Unspaced t := by
  unfold structLiteral at h
  dsimp only at h
  split at h
  · cases h
  · next hd =>
    split at h
    · cases h
    · cases h
      obtain ⟨hfields, hrest⟩ := unspaced_span hr hd
      simp only [List.cons_append, List.forall_mem_cons, List.forall_mem_append]
      exact ⟨Opcode.unspaced_mnemonic _, hn, ⟨hfields, Opcode.unspaced_mnemonic _,
        List.forall_mem_nil _⟩, hrest⟩

theorem unspaced_summation (h : summation r = .ok (out, rest)) (hr : ∀ t ∈ r, Unspaced t) :
    ∀ t ∈ out ++ rest, Unspaced t := by
  unfold summation at h
  split at h
  · cases h
  · next target r =>
    obtain ⟨ht, hr⟩ := List.forall_mem_cons.mp hr
    obtain ⟨l, r?, -, hsplit, heq⟩ := Token.exists_splitAt? '.' target.toList
    rw [heq] at h
    cases r? with
    | none =>
      cases h
      simp only [List.forall_mem_append, List.forall_mem_cons]
      exact ⟨⟨Opcode.unspaced_mnemonic _, ht, List.forall_mem_nil _⟩, hr⟩
    | some field =>
      dsimp only [Option.map_some] at h
      split at h
      · cases h
      · cases h
        have hl : Unspaced (String.ofList l) := ht.part (by simp [hsplit])
        have hf : Unspaced (String.ofList field) := ht.part fun c hc => by simp [hsplit, hc]
        simp only [List.forall_mem_append, List.forall_mem_cons]
        exact ⟨⟨Opcode.unspaced_mnemonic _, hl, hf, List.forall_mem_nil _⟩, hr⟩

/-- A shorthand is replaced by names of opcodes and by parts of its tokens. -/
theorem unspaced_construct {last : Option Token} (h : construct last t r = .ok (out, rest))
    (ht : Unspaced t) (hr : ∀ t ∈ r, Unspaced t) : ∀ t ∈ out ++ rest, Unspaced t := by
  unfold construct at h
  split at h
  · next kind hk =>
    refine unspaced_declaration h (ht.part ?_) hr
    rw [Token.dropEnding?] at hk
    split at hk
    · cases hk
      exact List.take_subset _ _
    · cases hk
  · split at h
    · exact unspaced_insertion h hr
    · split at h
      · exact unspaced_summation h hr
      · split at h
        · split at h
          · next name r hs =>
            simp only [List.forall_mem_cons] at hr
            exact unspaced_structLiteral h hr.1 hr.2.2
          · cases h
            exact List.forall_mem_cons.mpr ⟨ht, hr⟩
        · cases h
          exact List.forall_mem_cons.mpr ⟨ht, hr⟩

/-- So all shorthands can be replaced. -/
theorem unspaced_expandFrom {last : Option Token} (h : expandFrom last ts = .ok out)
    (hts : ∀ t ∈ ts, Unspaced t) : ∀ t ∈ out, Unspaced t := by
  fun_induction expandFrom last ts generalizing out with
  | case1 =>
    cases h
    exact hts
  | case2 | case3 => cases h
  | case4 last t r w rest hc more hmore ih =>
    cases h
    obtain ⟨ht, hr⟩ := List.forall_mem_cons.mp hts
    obtain ⟨hw, hrest⟩ := List.forall_mem_append.mp (unspaced_construct hc ht hr)
    exact List.forall_mem_append.mpr ⟨hw, ih hmore hrest⟩

end Sugar

namespace Call

/-- A parameter is named after the function and a number. -/
theorem unspaced_bindings {function : Token} (hf : Unspaced function) (n : Nat)
    (hts : ∀ t ∈ ts, Unspaced t) : ∀ t ∈ bindings function n ts, Unspaced t := by
  induction ts generalizing n with
  | nil => exact hts
  | cons a as ih =>
    obtain ⟨ha, has⟩ := List.forall_mem_cons.mp hts
    have hname : Unspaced (function ++ "_" ++ Nat.repr n) :=
      (hf.append (by decide)).append (unspaced_repr n)
    rw [bindings, List.forall_mem_append, List.forall_mem_cons, List.forall_mem_cons]
    refine ⟨?_, Opcode.unspaced_mnemonic _, hname, ih (n + 1) has⟩
    split <;> simp only [List.forall_mem_cons]
    · exact ⟨Opcode.unspaced_mnemonic _, ha, List.forall_mem_nil _⟩
    · exact ⟨Opcode.unspaced_mnemonic _, by decide, ha, List.forall_mem_nil _⟩

/-- A call is replaced by the bindings of its arguments and by its function. -/
theorem unspaced_callWith {function count : Token} (h : callWith function count r = .ok (out, rest))
    (hf : Unspaced function) (hr : ∀ t ∈ r, Unspaced t) : ∀ t ∈ out ++ rest, Unspaced t := by
  unfold callWith at h
  split at h
  · cases h
  · dsimp only at h
    split at h
    · cases h
    · next hd =>
      split at h
      · cases h
        obtain ⟨hargs, hrest⟩ := unspaced_span hr hd
        simp only [List.forall_mem_append, List.forall_mem_cons]
        exact ⟨⟨unspaced_bindings hf 1 hargs, Opcode.unspaced_mnemonic _, hf,
          List.forall_mem_nil _⟩, hrest⟩
      · cases h

theorem unspaced_item (h : item t r = .ok (out, rest)) (ht : Unspaced t)
    (hr : ∀ t ∈ r, Unspaced t) : ∀ t ∈ out ++ rest, Unspaced t := by
  have hself : ∀ u ∈ [t] ++ r, Unspaced u := List.forall_mem_cons.mpr ⟨ht, hr⟩
  unfold item at h
  split at h
  · cases h
  · split at h
    · split at h
      · split at h
        · simp only [List.forall_mem_cons] at hr
          exact unspaced_callWith h hr.1 hr.2.2
        · cases h
          exact hself
      · cases h
        exact hself
    · cases h
      exact hself

/-- So all calls can be replaced. -/
theorem unspaced_expand (h : expand ts = .ok out) (hts : ∀ t ∈ ts, Unspaced t) :
    ∀ t ∈ out, Unspaced t := by
  fun_induction expand ts generalizing out with
  | case1 =>
    cases h
    exact hts
  | case2 | case3 => cases h
  | case4 t r w rest hc more hmore ih =>
    cases h
    obtain ⟨ht, hr⟩ := List.forall_mem_cons.mp hts
    obtain ⟨hw, hrest⟩ := List.forall_mem_append.mp (unspaced_item hc ht hr)
    exact List.forall_mem_append.mpr ⟨hw, ih hmore hrest⟩

end Call

namespace Body

theorem unspaced_closed (h : ∀ t ∈ ts, Unspaced t) : ∀ t ∈ closed ts, Unspaced t := by
  rw [closed]
  split
  · exact h
  · exact List.forall_mem_append.mpr ⟨h, List.forall_mem_singleton.mpr (by decide)⟩

/-- Bodies are moved, and only `end` is added. -/
theorem unspaced_hoist {reg : Registry} (h : hoist reg ts = .ok out) (hts : ∀ t ∈ ts, Unspaced t) :
    ∀ t ∈ out, Unspaced t := by
  cases hp : pieces reg [] ts with
  | error e =>
    rw [hoist, hp] at h
    cases h
  | ok ps =>
    rw [hoist, hp] at h
    cases h
    obtain ⟨items, -, -, rfl, rfl⟩ := pieces_eq_ok_iff.mp hp
    have hitem : ∀ i ∈ items, ∀ t ∈ i.tokens, Unspaced t :=
      fun i hi t ht => hts t (List.mem_flatMap.mpr ⟨i, hi, ht⟩)
    have hmain : ∀ t ∈ items.filterMap Item.main?, Unspaced t := by
      intro t ht
      obtain ⟨i, hi, hmain⟩ := List.mem_filterMap.mp ht
      cases i with
      | token u => exact hitem _ hi t (by cases hmain; exact .head _)
      | bare | branch => cases hmain
    have hbody : ∀ b ∈ items.filterMap Item.body?, ∀ t ∈ b.1 :: b.2, Unspaced t := by
      intro b hb t ht
      obtain ⟨i, hi, hbody⟩ := List.mem_filterMap.mp hb
      refine hitem i hi t ?_
      cases i with
      | token => cases hbody
      | bare | branch =>
        cases hbody
        rcases List.mem_cons.mp ht with rfl | ht <;> simp [Item.tokens, *]
    rw [layout_pieces, hoisted]
    split
    · exact hmain
    · refine List.forall_mem_append.mpr ⟨unspaced_closed hmain, fun t ht => ?_⟩
      obtain ⟨b, hb, ht⟩ := List.mem_flatMap.mp ht
      obtain ⟨hl, hbs⟩ := List.forall_mem_cons.mp (hbody b hb)
      exact List.forall_mem_cons.mpr ⟨hl, unspaced_closed hbs⟩ t ht

end Body

/-- The tokens that an assembly is read from have no blanks. -/
theorem unspaced_preprocess {reg : Registry} {text : String} (h : preprocess reg text = .ok ts) :
    ∀ t ∈ ts, Unspaced t := by
  obtain ⟨shown, hshown, h⟩ := exists_of_bind_eq_ok h
  obtain ⟨plain, hplain, h⟩ := exists_of_bind_eq_ok h
  obtain ⟨ordered, hordered, h⟩ := exists_of_bind_eq_ok h
  obtain ⟨written, hwritten, h⟩ := exists_of_bind_eq_ok h
  obtain ⟨bound, hbound, h⟩ := exists_of_bind_eq_ok h
  have hts := Numeral.unspaced_normalize hplain (unspaced_tokenize hshown)
  have hts := Sugar.unspaced_expandFrom hwritten (Postfix.unspaced_convert hordered hts)
  exact Body.unspaced_hoist h (Call.unspaced_expand hbound hts)

end Passes

/-! ### Legible operands -/

/-- A word that holds a text without blanks. -/
def Word.IsName (w : Word) : Prop :=
  ∃ t, Unspaced t ∧ w.toText? = some t

/-- A word that is what a kind makes of a value. -/
def ValueKind.Makes : ValueKind → Word → Prop
  | .uint256, _ | .bytes32, _ => True
  | .bool, w                  => ∃ b, w = .ofBool b
  | .address, w               => ∃ a, w = .ofAddress a
  | .string, w | .struct, w   => w.IsName

section Legible

variable {L : Type}

/-- An operand in which names have no blanks and values are made by their kinds. -/
def Operand.Legible : (k : OperandKind) → Operand L k → Prop
  | .name,   w      => Word.IsName w
  | .value,  (k, w) => k.Makes w
  | .fields, fs     => ∀ f ∈ fs, f.kind.Makes f.value
  | .variant, _ | .slot, _ | .int, _ | .flag, _ | .account, _ | .word, _ | .label, _ => True

/-- All operands are legible. -/
def Operands.Legible : (ps : List Param) → Operands L ps → Prop
  | [],      _       => True
  | p :: ps, (a, as) => Operand.Legible p.kind a ∧ Operands.Legible ps as

/-- An instruction whose names have no blanks, and whose values are made by their kinds. -/
def Instr.Legible (i : Instr L) : Prop :=
  Operands.Legible i.opcode.params i.operands

end Legible

namespace TokenReader

variable {α β : Type}

/-- From tokens without blanks the reader gives what `Q` says, and leaves such tokens. -/
def Draws (Q : α → Prop) (x : TokenReader α) : Prop :=
  ∀ ts a rest, (∀ t ∈ ts, Unspaced t) → x ts = (.ok a, rest) → Q a ∧ ∀ t ∈ rest, Unspaced t

namespace Draws

variable {P : α → Prop} {Q : β → Prop}

theorem pure {a : α} (ha : P a) : Draws P (pure a) := by
  intro ts b rest hts h
  cases h
  exact ⟨ha, hts⟩

theorem orFail {o : Option α} (e : CompileError) (ho : ∀ a, o = some a → P a) :
    Draws P (Act.orFail e o) := by
  cases o with
  | none =>
    intro ts a rest _ h
    cases h
  | some a => exact .pure (ho a rfl)

theorem lift {r : Except CompileError α} (hr : ∀ a, r = .ok a → P a) : Draws P (Act.lift r) := by
  cases r with
  | error e =>
    intro ts a rest _ h
    cases h
  | ok a => exact .pure (hr a rfl)

/-- A reader that hands on what `P` holds of can be followed by one that needs it. -/
theorem bind {x : TokenReader α} {f : α → TokenReader β} (hx : Draws P x)
    (hf : ∀ a, P a → Draws Q (f a)) : Draws Q (x >>= f) := by
  intro ts b rest hts h
  rcases hrun : x ts with ⟨e | a, ts'⟩
  · rw [Act.bind_of_error hrun] at h
    cases h
  · rw [Act.bind_of_ok hrun] at h
    obtain ⟨ha, hts'⟩ := hx ts a ts' hts hrun
    exact hf a ha ts' b rest hts' h

end Draws

theorem draws_next (e : Entry) : Draws Unspaced (next e) := by
  intro ts a rest hts h
  cases ts with
  | nil => cases h
  | cons t r =>
    cases h
    exact List.forall_mem_cons.mp hts

/-- The word of a token without blanks is a name. -/
theorem isName_of_nameWord {t : Token} {w : Word} (h : nameWord t = .ok w) (ht : Unspaced t) :
    w.IsName := by
  rw [nameWord] at h
  split at h
  · next hw =>
    cases h
    refine ⟨_, ?_, Word.toText?_of_ofText? hw⟩
    exact ht.part (List.rdropWhile_prefix _ _).subset
  · cases h

/-- The word of a value is one that its kind makes. -/
theorem makes_of_valueOf {e : Entry} {textKind : ValueKind} {t : Token} {v : ValueKind × Word}
    (hk : textKind = .string ∨ textKind = .struct) (h : valueOf e textKind t = .ok v)
    (ht : Unspaced t) : v.1.Makes v.2 := by
  unfold valueOf at h
  split at h
  · cases h
    exact ⟨true, rfl⟩
  · split at h
    · cases h
      exact ⟨false, rfl⟩
    · split at h
      · split at h
        · next l _ =>
          cases h
          cases l with
          | account a => exact ⟨a, rfl⟩
          | word | integer => trivial
        · cases h
      · cases hw : nameWord t with
        | error e =>
          rw [hw] at h
          cases h
        | ok w =>
          rw [hw] at h
          cases h
          rcases hk with rfl | rfl <;> exact isName_of_nameWord hw ht

theorem draws_fieldsOf (reg : Registry) (e : Entry) (owner : Token) (room : Nat) :
    Draws (Operand.Legible (L := Token) .fields) (fieldsOf reg e owner room) := by
  intro ts fs rest hts h
  fun_induction fieldsOf reg e owner room ts generalizing fs rest with
  | case1 | case3 | case4 | case6 | case7 | case8 => cases h
  | case2 | case5 =>
    cases h
    exact ⟨List.forall_mem_nil _, hts⟩
  | case9 room t v r _ hr k w hv fs' rest' heq ih =>
    cases h
    simp only [List.forall_mem_cons] at hts
    obtain ⟨hfs, hrest⟩ := ih _ _ hts.2.2 heq
    exact ⟨List.forall_mem_cons.mpr ⟨makes_of_valueOf (.inl rfl) hv hts.2.1, hfs⟩, hrest⟩

/-- An operand that is read from tokens without blanks is legible. -/
theorem draws_operand (reg : Registry) (e : Entry) (k : OperandKind) :
    Draws (Operand.Legible k) (operand reg e k) := by
  cases k with
  | variant => exact (draws_next e).bind fun _ _ => .orFail _ fun _ _ => trivial
  | slot => exact (draws_next e).bind fun _ _ => .pure trivial
  | int | flag | account | word | label =>
    exact (draws_next e).bind fun _ _ => .orFail _ fun _ _ => trivial
  | name => exact (draws_next e).bind fun t ht => .lift fun w hw => isName_of_nameWord hw ht
  | value =>
    exact (draws_next e).bind fun t ht => .lift fun v hv => makes_of_valueOf (.inr rfl) hv ht
  | fields =>
    exact (draws_next e).bind fun owner _ =>
      (Draws.lift fun _ _ => trivial).bind fun _ (_ : True) => draws_fieldsOf reg e owner maxFields

theorem draws_operands (reg : Registry) (e : Entry) (ps : List Param) :
    Draws (Operands.Legible ps) (operands reg e ps) := by
  induction ps with
  | nil => exact .pure trivial
  | cons p ps ih =>
    exact (draws_operand reg e p.kind).bind fun a ha => ih.bind fun as has => .pure ⟨ha, has⟩

/-- So is an instruction. -/
theorem draws_instr (reg : Registry) (t : Token) : Draws Instr.Legible (instr reg t) := by
  rw [instr]
  split
  · refine .orFail _ fun i hi => ?_
    obtain ⟨l, -, rfl⟩ := Option.map_eq_some_iff.mp hi
    cases l <;> exact ⟨trivial, trivial⟩
  · split
    · intro ts i rest _ h
      cases h
    · exact (draws_operands reg _ _).bind fun as has => .pure has

/-- So are the instructions of a block. -/
theorem draws_block (reg : Registry) : Draws (∀ i ∈ ·, Instr.Legible i) (block reg) := by
  intro ts is rest hts h
  fun_induction block reg ts generalizing is rest with
  | case1 =>
    cases h
    exact ⟨List.forall_mem_nil _, hts⟩
  | case2 | case4 => cases h
  | case3 t r i rest' hi hc =>
    cases h
    obtain ⟨hi, hrest⟩ := draws_instr reg t r i _ (List.forall_mem_cons.mp hts).2 hi
    exact ⟨List.forall_mem_singleton.mpr hi, hrest⟩
  | case5 t r i rest' hi _ is' rest'' hb ih =>
    cases h
    obtain ⟨hi, hrest'⟩ := draws_instr reg t r i rest' (List.forall_mem_cons.mp hts).2 hi
    obtain ⟨his, hrest⟩ := ih _ _ hrest' hb
    exact ⟨List.forall_mem_cons.mpr ⟨hi, his⟩, hrest⟩

end TokenReader

namespace Assembly

/-- So are those of the bodies. -/
theorem legible_bodiesOf {reg : Registry} {ts : List Token}
    {bs : List (Token × List (Instr Token))} (h : bodiesOf reg ts = .ok bs)
    (hts : ∀ t ∈ ts, Unspaced t) : ∀ b ∈ bs, ∀ i ∈ b.2, i.Legible := by
  fun_induction bodiesOf reg ts generalizing bs with
  | case1 =>
    cases h
    exact List.forall_mem_nil _
  | case2 | case3 | case4 => cases h
  | case5 label r _ is rest hb bs' hbs ih =>
    cases h
    obtain ⟨his, hrest⟩ :=
      TokenReader.draws_block reg r is rest (List.forall_mem_cons.mp hts).2 hb
    exact List.forall_mem_cons.mpr ⟨his, ih hbs hrest⟩

/-- What is read from tokens without blanks is legible. -/
theorem legible_ofTokens {reg : Registry} {tokens : List Token} {a : Assembly}
    (h : ofTokens reg tokens = .ok a) (hts : ∀ t ∈ tokens, Unspaced t) :
    ∀ i ∈ a.instrs, i.Legible := by
  unfold ofTokens at h
  split at h
  · cases h
  · next main rest hm =>
    obtain ⟨hmain, hrest⟩ := TokenReader.draws_block reg tokens main rest hts hm
    cases hb : bodiesOf reg rest with
    | error e =>
      rw [hb] at h
      cases h
    | ok bs =>
      rw [hb] at h
      cases h
      refine List.forall_mem_append.mpr ⟨hmain, fun i hi => ?_⟩
      obtain ⟨b, hmem, hi⟩ := List.mem_flatMap.mp hi
      exact legible_bodiesOf hb hrest b hmem i hi

end Assembly

end Proviso
