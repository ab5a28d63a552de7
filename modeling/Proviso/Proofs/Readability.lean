import Proviso.Proofs.Blanks
import Proviso.Proofs.Listings
import Proviso.Proofs.Returns
import Proviso.Proofs.Spellings

/-!
# Listings identify programs

The line of an instruction runs together an offset, a mnemonic and operands that are shown as
numbers, digits, texts or fields. Nothing in it is quoted, and a text is shown as it stands, so a
line can be taken apart only because of what a compiled program can hold. No text has a blank, so
the blanks of a line are those between its words. The mnemonic tells the kinds of the operands, and
a kind tells how many words an operand has, struct fields by the count in front of them. A word
determines its operand: numbers and digits read back, and behind a tag the value is the one word
that its kind makes of the text.

Main statement: `code_eq_of_listing_eq`.
-/

namespace Proviso

/-! ### Words of a line -/

/-- Words joined with blanks can be split at them again. -/
theorem toList_join_words (first : String) (ws : List String) :
    (first ++ String.join (ws.map (" " ++ ·))).toList
      = [' '].intercalate ((first :: ws).map String.toList) := by
  induction ws generalizing first with
  | nil => simp
  | cons w ws ih =>
    have hrest := ih w
    rw [List.map_cons] at hrest
    simp only [List.map_cons, List.intercalate_cons_cons, ← hrest]
    simp

/-- Words without blanks can be told from their line. -/
theorem words_eq_of_join_eq {first first' : String} {ws ws' : List String}
    (h : first ++ String.join (ws.map (" " ++ ·)) = first' ++ String.join (ws'.map (" " ++ ·)))
    (hw : ∀ w ∈ first :: ws, Unspaced w) (hw' : ∀ w ∈ first' :: ws', Unspaced w) :
    first :: ws = first' :: ws' := by
  have hsplit : ∀ {l : List String}, (∀ w ∈ l, Unspaced w) → l ≠ [] →
      ([' '].intercalate (l.map String.toList)).splitOn ' ' = l.map String.toList := by
    intro l hl hne
    exact List.splitOn_intercalate ' ' (List.forall_mem_map.mpr hl) (mt List.map_eq_nil_iff.mp hne)
  have hchars : (first :: ws).map String.toList = (first' :: ws').map String.toList := by
    rw [← hsplit hw (List.cons_ne_nil _ _), ← hsplit hw' (List.cons_ne_nil _ _),
      ← toList_join_words, h, toList_join_words]
  exact (List.map_inj_right fun s t => String.toList_inj.mp).mp hchars

/-! ### One word for one value -/

/-- An integer is determined by its decimal digits. -/
theorem UInt256.toDecimal_inj {v v' : UInt256} (h : v.toDecimal = v'.toDecimal) : v = v' := by
  have hd := v.ofDecimal?_toDecimal
  rw [h, v'.ofDecimal?_toDecimal] at hd
  exact (Option.some.inj hd).symm

theorem boolText_inj {b b' : Bool} (h : boolText b = boolText b') : b = b' := by
  revert h
  cases b <;> cases b' <;> decide

theorem unspaced_boolText (b : Bool) : Unspaced (boolText b) := by
  cases b <;> decide

section Hex

variable {n : Nat}

/-- Octets are determined by their hexadecimal digits. -/
theorem Octets.toHex_inj {a b : Octets n} (h : a.toHex = b.toHex) : a = b := by
  have hd := (Hex.isNumeralOf_toHex a).ofHex?
  rw [h, (Hex.isNumeralOf_toHex b).ofHex?] at hd
  exact (Option.some.inj hd).symm

theorem Octets.unspaced_toHex (a : Octets n) : Unspaced a.toHex :=
  (Hex.isNumeralOf_toHex a).not_mem (by decide) (by decide)

end Hex

namespace ValueKind

theorem name_inj {k k' : ValueKind} (h : k.name = k'.name) : k = k' := by
  revert h
  cases k <;> cases k' <;> decide

/-- The name of a kind has no colon, so the kind can be told from the value behind it. -/
theorem colon_not_mem_name (k : ValueKind) : ':' ∉ k.name.toList := by
  cases k <;> decide

theorem unspaced_name (k : ValueKind) : Unspaced k.name := by
  cases k <;> decide

end ValueKind

/-- A name is shown as its text. -/
theorem Word.IsName.textOrHex_eq {w : Word} (h : w.IsName) :
    Unspaced (textOrHex w) ∧ w.toText? = some (textOrHex w) := by
  obtain ⟨t, ht, hw⟩ := h
  rw [textOrHex, hw]
  exact ⟨ht, rfl⟩

/-- A name is determined by how it is shown. -/
theorem Word.IsName.textOrHex_inj {w w' : Word} (hw : w.IsName) (hw' : w'.IsName)
    (h : textOrHex w = textOrHex w') : w = w' := by
  have ht := Word.ofText?_of_toText? hw.textOrHex_eq.2
  rw [h, Word.ofText?_of_toText? hw'.textOrHex_eq.2] at ht
  exact (Option.some.inj ht).symm

namespace ValueKind.Makes

variable {k : ValueKind} {w w' : Word}

/-- A value that its kind makes is shown without blanks. -/
theorem unspaced_renderValue (h : k.Makes w) : Unspaced (renderValue k w) := by
  cases k with
  | uint256 => exact unspaced_repr _
  | bool => exact unspaced_boolText _
  | address | bytes32 => exact Octets.unspaced_toHex _
  | string | struct => exact h.textOrHex_eq.1

/-- A value is determined by what a listing shows of it. -/
theorem renderValue_inj (hw : k.Makes w) (hw' : k.Makes w')
    (h : renderValue k w = renderValue k w') : w = w' := by
  cases k with
  | uint256 =>
    have hv : w.toUInt256 = w'.toUInt256 := UInt256.toDecimal_inj h
    rw [← Word.ofUInt256_toUInt256 w, hv, Word.ofUInt256_toUInt256]
  | bool =>
    obtain ⟨b, rfl⟩ := hw
    obtain ⟨b', rfl⟩ := hw'
    have hb := boolText_inj h
    rw [Word.toBool_ofBool, Word.toBool_ofBool] at hb
    rw [hb]
  | address =>
    obtain ⟨a, rfl⟩ := hw
    obtain ⟨a', rfl⟩ := hw'
    have ha := Octets.toHex_inj h
    rw [Word.toAddress_ofAddress, Word.toAddress_ofAddress] at ha
    rw [ha]
  | bytes32 => exact Octets.toHex_inj h
  | string | struct => exact hw.textOrHex_inj hw' h

end ValueKind.Makes

theorem unspaced_renderTagged {k : ValueKind} {w : Word} (h : k.Makes w) :
    Unspaced (renderTagged k w) :=
  (k.unspaced_name.append (by decide)).append h.unspaced_renderValue

/-- A value shown with its kind determines both. -/
theorem renderTagged_inj {k k' : ValueKind} {w w' : Word} (hw : k.Makes w) (hw' : k'.Makes w')
    (h : renderTagged k w = renderTagged k' w') : k = k' ∧ w = w' := by
  obtain ⟨hk, hv⟩ := parts_eq_of_append_eq (c := ':') rfl k.colon_not_mem_name
    k'.colon_not_mem_name h
  obtain rfl := ValueKind.name_inj hk
  exact ⟨rfl, hw.renderValue_inj hw' hv⟩

/-! ### The words of an operand -/

namespace Field

/-- What a listing shows of a field. -/
def word (f : Field) : String :=
  f.slot.toHex ++ "=" ++ renderTagged f.kind f.value

theorem unspaced_word {f : Field} (h : f.kind.Makes f.value) : Unspaced f.word :=
  (f.slot.unspaced_toHex.append (by decide)).append (unspaced_renderTagged h)

/-- A field is determined by its word in a listing. -/
theorem word_inj {f g : Field} (hf : f.kind.Makes f.value) (hg : g.kind.Makes g.value)
    (h : f.word = g.word) : f = g := by
  have heq : ∀ s : Slot, '=' ∉ s.toHex.toList := fun s =>
    (Hex.isNumeralOf_toHex s).not_mem (by decide) (by decide)
  obtain ⟨hslot, hrest⟩ := parts_eq_of_append_eq (c := '=') rfl (heq f.slot) (heq g.slot) h
  obtain ⟨hkind, hvalue⟩ := renderTagged_inj hf hg hrest
  obtain ⟨slot, kind, value⟩ := f
  obtain ⟨slot', kind', value'⟩ := g
  obtain rfl := Octets.toHex_inj hslot
  cases hkind
  cases hvalue
  rfl

/-- So are the fields of a struct. -/
theorem eq_of_map_word_eq {fs gs : List Field} (hf : ∀ f ∈ fs, f.kind.Makes f.value)
    (hg : ∀ g ∈ gs, g.kind.Makes g.value) (h : fs.map word = gs.map word) : fs = gs := by
  induction fs generalizing gs with
  | nil => exact (List.map_eq_nil_iff.mp h.symm).symm
  | cons f fs ih =>
    cases gs with
    | nil => cases h
    | cons g gs =>
      rw [List.map_cons, List.map_cons, List.cons.injEq] at h
      rw [List.forall_mem_cons] at hf hg
      rw [word_inj hf.1 hg.1 h.1, ih hf.2 hg.2 h.2]

end Field

/-- A struct is shown as the number of its fields and then the fields. -/
theorem Operand.words_fields {L : Type} (place : L → Nat) (fs : List Field) :
    Operand.words place .fields fs = Nat.repr fs.length :: fs.map Field.word := by
  refine congrArg (Nat.repr fs.length :: ·) (List.map_congr_left fun f _ => ?_)
  simp only [Field.word, renderTagged, String.append_assoc]

section Words

variable {L M : Type} {place : L → Nat} {place' : M → Nat}

/-- The words of a legible operand have no blanks. -/
theorem Operand.Legible.unspaced_words {k : OperandKind} {a : Operand L k}
    (h : Operand.Legible k a) : ∀ w ∈ Operand.words place k a, Unspaced w := by
  cases k with
  | variant => exact List.forall_mem_singleton.mpr (ValueKind.unspaced_name a)
  | slot | account | word => exact List.forall_mem_singleton.mpr (Octets.unspaced_toHex _)
  | int => exact List.forall_mem_singleton.mpr (unspaced_repr _)
  | flag => exact List.forall_mem_singleton.mpr (unspaced_boolText a)
  | label =>
    exact List.forall_mem_singleton.mpr (Unspaced.append (by decide) (unspaced_repr (place a)))
  | name => exact List.forall_mem_singleton.mpr h.textOrHex_eq.1
  | value => exact List.forall_mem_singleton.mpr (unspaced_renderTagged h)
  | fields =>
    rw [Operand.words_fields]
    refine List.forall_mem_cons.mpr ⟨unspaced_repr _, List.forall_mem_map.mpr fun f hf => ?_⟩
    exact Field.unspaced_word (h f hf)

/-- An operand can be told from its words, and from what stands behind them. -/
theorem Operand.eq_of_words_append_eq {k : OperandKind} {a : Operand L k} {b : Operand M k}
    {r r' : List String} (ha : Operand.Legible k a) (hb : Operand.Legible k b)
    (h : Operand.words place k a ++ r = Operand.words place' k b ++ r') :
    Operand.mapLabels place k a = Operand.mapLabels place' k b ∧ r = r' := by
  cases k with
  | fields =>
    rw [words_fields, words_fields, List.cons_append, List.cons_append, List.cons.injEq] at h
    have hlen : (List.map Field.word a).length = (List.map Field.word b).length := by
      rw [List.length_map, List.length_map]
      exact repr_inj h.1
    obtain ⟨hfields, hr⟩ := List.append_inj h.2 hlen
    exact ⟨Field.eq_of_map_word_eq ha hb hfields, hr⟩
  | variant =>
    obtain ⟨hw, hr⟩ := List.cons.inj h
    exact ⟨ValueKind.name_inj hw, hr⟩
  | slot | account | word =>
    obtain ⟨hw, hr⟩ := List.cons.inj h
    exact ⟨Octets.toHex_inj hw, hr⟩
  | int =>
    obtain ⟨hw, hr⟩ := List.cons.inj h
    exact ⟨UInt256.toDecimal_inj hw, hr⟩
  | flag =>
    obtain ⟨hw, hr⟩ := List.cons.inj h
    exact ⟨boolText_inj hw, hr⟩
  | label =>
    obtain ⟨hw, hr⟩ := List.cons.inj h
    exact ⟨repr_inj ((String.append_right_inj _).mp hw), hr⟩
  | name =>
    obtain ⟨hw, hr⟩ := List.cons.inj h
    exact ⟨ha.textOrHex_inj hb hw, hr⟩
  | value =>
    obtain ⟨hw, hr⟩ := List.cons.inj h
    obtain ⟨hk, hv⟩ := renderTagged_inj ha hb hw
    exact ⟨Prod.ext hk hv, hr⟩

theorem Operands.Legible.unspaced_words {ps : List Param} {as : Operands L ps}
    (h : Operands.Legible ps as) : ∀ w ∈ Operands.words place ps as, Unspaced w := by
  induction ps with
  | nil => exact List.forall_mem_nil _
  | cons p ps ih => exact List.forall_mem_append.mpr ⟨h.1.unspaced_words, ih h.2⟩

/-- Operands of an opcode are determined by their words, up to what labels stand for. -/
theorem Operands.eq_of_words_eq {ps : List Param} {as : Operands L ps} {bs : Operands M ps}
    (ha : Operands.Legible ps as) (hb : Operands.Legible ps bs)
    (h : Operands.words place ps as = Operands.words place' ps bs) :
    Operands.mapLabels place ps as = Operands.mapLabels place' ps bs := by
  induction ps with
  | nil => rfl
  | cons p ps ih =>
    obtain ⟨hfirst, hrest⟩ := Operand.eq_of_words_append_eq ha.1 hb.1 h
    exact Prod.ext hfirst (ih ha.2 hb.2 hrest)

/-! ### Lines -/

theorem unspaced_zeroPadded (width n : Nat) : Unspaced (zeroPadded width n) := by
  have hn := unspaced_repr n
  rw [Unspaced] at hn
  rw [Unspaced, zeroPadded, String.toList_ofList, List.mem_append, not_or]
  exact ⟨fun hb => absurd (List.eq_of_mem_replicate hb) (by decide), hn⟩

/-- A line is the offset, the name of the opcode and the words of the operands. -/
theorem Instr.line_eq (offset : Nat) (i : Instr L) :
    i.line place offset = (zeroPadded 4 offset ++ ":") ++ String.join
      ((i.opcode.mnemonic :: Operands.words place i.opcode.params i.operands).map (" " ++ ·)) := by
  have hcolon : (": " : String) = ":" ++ " " := by decide
  simp only [Instr.line, hcolon, List.map_cons, String.join_cons, String.append_assoc]

/-- Legible instructions with the same line are the same once their labels have places. -/
theorem Instr.eq_of_line_eq {i : Instr L} {j : Instr M} {n m : Nat} (hi : i.Legible)
    (hj : j.Legible) (h : i.line place n = j.line place' m) :
    i.mapLabels place = j.mapLabels place' := by
  rw [line_eq, line_eq] at h
  have hhead : ∀ n, Unspaced (zeroPadded 4 n ++ ":") := fun n =>
    (unspaced_zeroPadded 4 n).append (by decide)
  have hwords := words_eq_of_join_eq h
    (List.forall_mem_cons.mpr ⟨hhead n, List.forall_mem_cons.mpr
      ⟨i.opcode.unspaced_mnemonic, hi.unspaced_words⟩⟩)
    (List.forall_mem_cons.mpr ⟨hhead m, List.forall_mem_cons.mpr
      ⟨j.opcode.unspaced_mnemonic, hj.unspaced_words⟩⟩)
  simp only [List.cons.injEq] at hwords
  obtain ⟨-, hop, hargs⟩ := hwords
  obtain ⟨op, as⟩ := i
  obtain ⟨op', bs⟩ := j
  obtain rfl : op = op' := Opcode.mnemonic_inj hop
  exact congrArg (Instr.mk op) (Operands.eq_of_words_eq hi hj hargs)

end Words

/-! ### Programs -/

namespace Assembly

/-- Legible assemblies with the same listing have the same bytes. -/
theorem encode_eq_of_lines_eq {a b : Assembly} (ha : ∀ i ∈ a.instrs, i.Legible)
    (hb : ∀ i ∈ b.instrs, i.Legible)
    (h : (a.instrs.mapIdx fun k i => i.line a.offsetOf (sizeSum (a.instrs.take k)))
      = b.instrs.mapIdx fun k i => i.line b.offsetOf (sizeSum (b.instrs.take k))) :
    a.encode = b.encode := by
  have hplaced : a.instrs.map (Instr.mapLabels a.offsetOf)
      = b.instrs.map (Instr.mapLabels b.offsetOf) := by
    refine List.ext_getElem? fun k => ?_
    have hk := congrArg (·[k]?) h
    simp only [List.getElem?_mapIdx] at hk
    rw [List.getElem?_map, List.getElem?_map]
    cases hi : a.instrs[k]? with
    | none =>
      rw [hi] at hk
      rw [Option.map_eq_none_iff.mp hk.symm]
      rfl
    | some i =>
      rw [hi] at hk
      obtain ⟨j, hj, hline⟩ := Option.map_eq_some_iff.mp hk.symm
      rw [hj]
      exact congrArg some (Instr.eq_of_line_eq (ha i (List.mem_of_getElem? hi))
        (hb j (List.mem_of_getElem? hj)) hline.symm)
  have hbytes : ∀ c : Assembly,
      c.encode = (c.instrs.map (Instr.mapLabels c.offsetOf)).flatMap Instr.encode := by
    intro c
    rw [List.flatMap_map]
    rfl
  rw [hbytes a, hbytes b, hplaced]

end Assembly

/-- **Listings identify programs.** Compiled texts have listings, and texts whose listings are the
same, line by line, have the same bytes. -/
theorem code_eq_of_listing_eq {text text' : String} {code code' : List UInt8}
    (h : compile text = .ok code) (h' : compile text' = .ok code') :
    ∃ lines lines', listing code.toArray = .ok lines ∧ listing code'.toArray = .ok lines' ∧
      (lines = lines' → code = code') := by
  obtain ⟨tokens, a, hp, ha, hl⟩ := compile_eq_ok h
  obtain ⟨tokens', b, hp', hb, hl'⟩ := compile_eq_ok h'
  have hlinked := Assembly.linked_of_tokens ha hl
  have hlinked' := Assembly.linked_of_tokens hb hl'
  refine ⟨_, _, hlinked.listingFrom_eq [] rfl, hlinked'.listingFrom_eq [] rfl, fun hlines => ?_⟩
  rw [hlinked.code_eq, hlinked'.code_eq]
  exact Assembly.encode_eq_of_lines_eq (Assembly.legible_ofTokens ha (unspaced_preprocess hp))
    (Assembly.legible_ofTokens hb (unspaced_preprocess hp')) hlines

theorem eq_ok_of_toOption {ε α : Type} {x : Except ε α} {a : α} (h : x.toOption = some a) :
    x = .ok a := by
  cases x with
  | error e => cases h
  | ok b =>
    cases h
    rfl

/-- The spelling of a number, a comment, and a zero character at the end of a name do not show in a
listing. -/
theorem code_eq_of_listing_of_respelling :
    ∃ code code' lines, compile "insert 1e3 into Paid" = .ok code ∧
      compile "insert 1000 into /**/ Paid\x00" = .ok code' ∧
      listing code.toArray = .ok lines ∧ listing code'.toArray = .ok lines ∧ code = code' := by
  have hlines : ∀ text ∈ ["insert 1e3 into Paid", "insert 1000 into /**/ Paid\x00"],
      ((compile text).toOption.bind fun code => (listing code.toArray).toOption)
        = some ["0000: push uint256:1000 Paid"] := by
    decide +kernel
  obtain ⟨code, hc, hl⟩ := Option.bind_eq_some_iff.mp (hlines _ (.head _))
  obtain ⟨code', hc', hl'⟩ := Option.bind_eq_some_iff.mp (hlines _ (.tail _ (.head _)))
  have hc := eq_ok_of_toOption hc
  have hc' := eq_ok_of_toOption hc'
  have hl := eq_ok_of_toOption hl
  have hl' := eq_ok_of_toOption hl'
  obtain ⟨lines, lines', hlist, hlist', heq⟩ := code_eq_of_listing_eq hc hc'
  rw [hl] at hlist
  rw [hl'] at hlist'
  cases hlist
  cases hlist'
  exact ⟨code, code', _, hc, hc', hl, hl', heq rfl⟩

end Proviso
