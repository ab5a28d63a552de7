import Mathlib.Data.List.Infix
import Proviso.Proofs.Lexing

/-!
# The grammar of texts

What the tokens of a text are, without a scanner. A first part of a text ends outside comments and
counts as the code that is left when each of its comments is one blank (`Uncommented`). Code is made
of separators, of brackets, and of words that cannot be made longer (`Cut`).

Every text has such a first part that is the whole text, or one that goes up to a comment without an
end (`exists_uncommented`); every code is cut in one way (`cut_iff_splitFrom`). No code contains the
start of a comment (`Uncommented.no_marks`), and so its tokens can be written down again with blanks
between them (`shown_intercalate`).

Main statement: `tokenize_iff_grammar`.
-/

namespace Proviso.Token

/-! ### Comments -/

/-- The part of a text before `rest` ends outside comments, and counts as `code`. A comment starts
where one of its marks stands outside of others; it ends with its line or the text, or with the
first `*/` behind its mark, and counts as one blank. -/
inductive Uncommented : List Char → List Char → List Char → Prop where
  | nil (rest : List Char) : Uncommented [] [] rest
  | char {c : Char} {part code rest : List Char} (hl : ¬ ['/', '/'] <+: c :: (part ++ rest))
      (hb : ¬ ['/', '*'] <+: c :: (part ++ rest)) (h : Uncommented part code rest) :
      Uncommented (c :: part) (c :: code) rest
  | line {body part code rest : List Char} (hb : '\n' ∉ body) (h : Uncommented part code rest) :
      Uncommented ('/' :: '/' :: (body ++ '\n' :: part)) (' ' :: code) rest
  | lastLine {body : List Char} (hb : '\n' ∉ body) : Uncommented ('/' :: '/' :: body) [' '] []
  | block {body part code rest : List Char} (hb : ¬ ['*', '/'] <:+: body)
      (h : Uncommented part code rest) :
      Uncommented ('/' :: '*' :: (body ++ '*' :: '/' :: part)) (' ' :: code) rest

/-- A comment that is not closed. -/
inductive Unclosed : List Char → Prop where
  | block {body : List Char} (h : ¬ ['*', '/'] <:+: body) : Unclosed ('/' :: '*' :: body)

/-- The first end of a block comment. -/
theorem exists_first_close {r : List Char} (h : ['*', '/'] <:+: r) :
    ∃ body rest, r = body ++ '*' :: '/' :: rest ∧ ¬ ['*', '/'] <:+: body := by
  induction r with
  | nil => simp at h
  | cons c r ih =>
    by_cases hp : ['*', '/'] <+: c :: r
    · obtain ⟨rest, hrest⟩ := hp
      exact ⟨[], rest, hrest.symm, by simp⟩
    · obtain ⟨body, rest, rfl, hbody⟩ := ih ((List.infix_cons_iff.mp h).resolve_left hp)
      refine ⟨c :: body, rest, rfl, fun hi => ?_⟩
      rcases List.infix_cons_iff.mp hi with hi | hi
      · exact hp (hi.trans (List.prefix_append (c :: body) _))
      · exact hbody hi

/-- A text can be read to its end, or up to a comment that is not closed. -/
theorem exists_uncommented (text : List Char) :
    ∃ part code rest, text = part ++ rest ∧ Uncommented part code rest ∧
      (rest = [] ∨ Unclosed rest) := by
  -- what is behind a comment is shorter by all of the comment, hence the strong induction
  induction hn : text.length using Nat.strong_induction_on generalizing text with
  | _ n ih =>
    by_cases hl : ['/', '/'] <+: text
    · obtain ⟨r, rfl⟩ := hl
      by_cases hnl : '\n' ∈ r
      · obtain ⟨body, behind, rfl, hbody⟩ := List.eq_append_cons_of_mem hnl
        obtain ⟨part, code, rest, rfl, hpart, hrest⟩ :=
          ih behind.length (by simp at hn; omega) behind rfl
        exact ⟨_, _, rest, by simp, .line hbody hpart, hrest⟩
      · exact ⟨_, _, [], by simp, .lastLine hnl, .inl rfl⟩
    by_cases hb : ['/', '*'] <+: text
    · obtain ⟨r, rfl⟩ := hb
      by_cases hclose : ['*', '/'] <:+: r
      · obtain ⟨body, behind, rfl, hbody⟩ := exists_first_close hclose
        obtain ⟨part, code, rest, rfl, hpart, hrest⟩ :=
          ih behind.length (by simp at hn; omega) behind rfl
        exact ⟨_, _, rest, by simp, .block hbody hpart, hrest⟩
      · exact ⟨[], [], _, rfl, .nil _, .inr (.block hclose)⟩
    cases text with
    | nil => exact ⟨[], [], [], rfl, .nil _, .inl rfl⟩
    | cons c r =>
      obtain ⟨part, code, rest, rfl, hpart, hrest⟩ := ih r.length (by simp at hn; omega) r rfl
      exact ⟨_, _, rest, rfl, .char hl hb hpart, hrest⟩

theorem head?_ne_of_no_mark {c : Char} {r : List Char} (hl : ¬ ['/', '/'] <+: c :: r)
    (hb : ¬ ['/', '*'] <+: c :: r) : c = '/' → r.head? ≠ some '/' ∧ r.head? ≠ some '*' := by
  rintro rfl
  constructor <;> intro hhead <;> obtain ⟨r', rfl⟩ := List.head?_eq_some_iff.mp hhead
  · exact hl ⟨r', rfl⟩
  · exact hb ⟨r', rfl⟩

variable {part code rest : List Char}

/-- Comments in a part of the text are blanked; the scan goes on behind it. -/
theorem Uncommented.blankComments_append (h : Uncommented part code rest) (total : Nat) :
    blankComments total .code (part ++ rest)
      = (blankComments total .code rest).map (code ++ ·) := by
  induction h with
  | nil rest => cases h : blankComments total .code rest <;> simp [Except.map, h]
  | @char c part code rest hl hb _ ih =>
    rw [List.cons_append, blankComments_cons (head?_ne_of_no_mark hl hb), ih]
    cases blankComments total .code rest <;> rfl
  | @line body part code rest hb _ ih =>
    rw [List.cons_append, List.cons_append, List.append_assoc, List.cons_append,
      blankComments, blankComments_line hb, ih]
    cases blankComments total .code rest <;> rfl
  | @lastLine body hb =>
    rw [List.append_nil]
    show (blankComments total .line body).map (' ' :: ·) = _
    rw [blankComments_last_line hb]
    rfl
  | @block body part code rest hb _ ih =>
    rw [List.cons_append, List.cons_append, List.append_assoc, List.cons_append, List.cons_append,
      blankComments, blankComments_block hb, ih]
    cases blankComments total .code rest <;> rfl

/-- A block comment without its end is an error, at its start. -/
theorem blankComments_open_block {total start : Nat} {body : List Char}
    (h : ¬ ['*', '/'] <:+: body) :
    blankComments total (.block start) body = .error (.unterminatedComment start) := by
  induction body with
  | nil => rfl
  | cons c body ih =>
    have ht : ¬ ['*', '/'] <:+: body := fun hi => h (hi.trans (List.suffix_cons c body).isInfix)
    rw [blankComments, ih ht]
    rintro r rfl rfl
    exact h (List.prefix_append ['*', '/'] r).isInfix

/-- So is a text whose last comment is not closed. -/
theorem Unclosed.blankComments_eq (h : Unclosed rest) (total : Nat) :
    blankComments total .code rest = .error (.unterminatedComment (total - byteLength rest)) := by
  cases h with
  | block h =>
    rw [blankComments, blankComments_open_block h]
    rfl

theorem byteLength_cons (c : Char) (cs : List Char) :
    byteLength (c :: cs) = c.utf8Size + byteLength cs :=
  rfl

/-- Bytes of two texts add up. -/
theorem byteLength_append (l r : List Char) :
    byteLength (l ++ r) = byteLength l + byteLength r := by
  induction l with
  | nil => exact (Nat.zero_add _).symm
  | cons c l ih => rw [List.cons_append, byteLength_cons, byteLength_cons, ih, Nat.add_assoc]

/-- The length in bytes is that of the text in UTF-8. -/
theorem byteLength_eq (cs : List Char) : byteLength cs = (String.ofList cs).utf8ByteSize := by
  induction cs with
  | nil => rfl
  | cons c cs ih =>
    rw [String.ofList_cons, String.utf8ByteSize_append, String.utf8ByteSize_singleton, ← ih]
    rfl

/-- What the scan makes of a text that is read up to a comment that is not closed. -/
theorem Uncommented.blankComments_unclosed (h : Uncommented part code rest) (hr : Unclosed rest) :
    blankComments (byteLength (part ++ rest)) .code (part ++ rest)
      = .error (.unterminatedComment (String.ofList part).utf8ByteSize) := by
  rw [h.blankComments_append, hr.blankComments_eq, byteLength_append, Nat.add_sub_cancel,
    byteLength_eq]
  rfl

/-! ### Tokens -/

/-- The tokens that code consists of: each bracket, and each word that is as long as can be. -/
inductive Cut : List Char → List Token → Prop where
  | nil : Cut [] []
  | separator {c : Char} {r : List Char} {ts : List Token} (hc : isSeparator c = true)
      (h : Cut r ts) : Cut (c :: r) ts
  | bracket {c : Char} {r : List Char} {ts : List Token} (hc : isBracket c = true) (h : Cut r ts) :
      Cut (c :: r) (String.ofList [c] :: ts)
  | word {w r : List Char} {ts : List Token} (hne : w ≠ [])
      (hw : ∀ c ∈ w, isSeparator c = false ∧ isBracket c = false) (hend : Breaks r)
      (h : Cut r ts) : Cut (w ++ r) (String.ofList w :: ts)

/-- The token under way, if there is one, ends here. -/
theorem Cut.flush {current cs : List Char} {ts : List Token} (h : Cut cs ts)
    (hw : ∀ c ∈ current, isSeparator c = false ∧ isBracket c = false) (hend : Breaks cs) :
    Cut (current.reverse ++ cs) (flush current ++ ts) := by
  cases current with
  | nil => exact h
  | cons c current =>
    exact .word (by simp) (fun d hd => hw d (List.mem_reverse.mp hd)) hend h

/-- The text is cut as the rules say, with `current` the reversed beginning of a word. -/
theorem cut_splitFrom (current cs : List Char)
    (hw : ∀ c ∈ current, isSeparator c = false ∧ isBracket c = false) :
    Cut (current.reverse ++ cs) (splitFrom current cs) := by
  induction cs generalizing current with
  | nil =>
    rw [splitFrom, ← List.append_nil (Token.flush current)]
    exact Cut.nil.flush hw (by rintro _ _ ⟨⟩)
  | cons c r ih =>
    have hr : Cut r (splitFrom [] r) := ih [] (by simp)
    rw [splitFrom]
    split
    · next hc => exact (Cut.separator hc hr).flush hw (.cons (.inl hc))
    · next hc =>
      split
      · next hb => exact (Cut.bracket hb hr).flush hw (.cons (.inr hb))
      · next hb =>
        have hcs := ih (c :: current)
          (List.forall_mem_cons.mpr ⟨⟨Bool.eq_false_iff.mpr hc, Bool.eq_false_iff.mpr hb⟩, hw⟩)
        rwa [List.reverse_cons, List.append_assoc] at hcs

/-- Code is cut as the grammar says, and in no other way. -/
theorem cut_iff_splitFrom {cs : List Char} {ts : List Token} :
    Cut cs ts ↔ splitFrom [] cs = ts := by
  constructor
  · intro h
    induction h with
    | nil => rfl
    | separator hc _ ih =>
      rw [splitFrom, if_pos hc, ih]
      rfl
    | bracket hc _ ih =>
      rw [splitFrom, isSeparator_of_isBracket hc, if_neg Bool.false_ne_true, if_pos hc, ih]
      rfl
    | word hne hw hend _ ih =>
      rw [splitFrom_word hw, splitFrom_of_breaks hend, ih]
      simp [Token.flush, hne]
  · rintro rfl
    exact cut_splitFrom [] cs (by simp)

/-- A text has tokens exactly if its comments are closed; they are those of the text without
comments. -/
theorem tokenize_eq_ok_iff (text : String) (ts : List Token) :
    tokenize text = .ok ts ↔ ∃ code, Uncommented text.toList code [] ∧ Cut code ts := by
  constructor
  · intro h
    obtain ⟨part, code, rest, htext, hpart, rfl | hrest⟩ := exists_uncommented text.toList
    · rw [tokenize, htext, hpart.blankComments_append] at h
      refine ⟨code, ?_, cut_iff_splitFrom.mpr ?_⟩
      · rwa [htext, List.append_nil]
      · rw [← Except.ok.inj h]
        simp
    · rw [tokenize, htext, hpart.blankComments_unclosed hrest] at h
      cases h
  · rintro ⟨code, hcode, hcut⟩
    have hblank := hcode.blankComments_append (byteLength text.toList)
    rw [List.append_nil] at hblank
    rw [tokenize, hblank, ← cut_iff_splitFrom.mp hcut]
    simp [blankComments, Except.map]

/-- The only error is a block comment that is not closed, at the byte where it starts. -/
theorem tokenize_eq_error_iff (text : String) (e : CompileError) :
    tokenize text = .error e ↔
      ∃ part code body, text.toList = part ++ '/' :: '*' :: body ∧
        Uncommented part code ('/' :: '*' :: body) ∧ ¬ ['*', '/'] <:+: body ∧
        e = .unterminatedComment (String.ofList part).utf8ByteSize := by
  constructor
  · intro h
    obtain ⟨part, code, rest, htext, hpart, rfl | hrest⟩ := exists_uncommented text.toList
    · rw [tokenize, htext, hpart.blankComments_append] at h
      cases h
    · rw [tokenize, htext, hpart.blankComments_unclosed hrest] at h
      cases h
      cases hrest with
      | block hbody => exact ⟨part, code, _, htext, hpart, hbody, rfl⟩
  · rintro ⟨part, code, body, htext, hpart, hbody, rfl⟩
    rw [tokenize, htext, hpart.blankComments_unclosed (.block hbody)]
    rfl

/-! ### Tokens written down again -/

/-- Code starts as its text does, or with a comment. -/
theorem Uncommented.head? (h : Uncommented part code rest) {c : Char} (hc : code.head? = some c) :
    c = ' ' ∨ (part ++ rest).head? = some c := by
  cases h with
  | nil => cases hc
  | char => exact .inr hc
  | line | lastLine | block => exact .inl (Option.some.inj hc).symm

/-- Nothing starts a comment. -/
def NoMarks (cs : List Char) : Prop :=
  ¬ ['/', '/'] <:+: cs ∧ ¬ ['/', '*'] <:+: cs

theorem NoMarks.of_infix {l cs : List Char} (h : NoMarks cs) (hl : l <:+: cs) : NoMarks l :=
  ⟨fun hi => h.1 (hi.trans hl), fun hi => h.2 (hi.trans hl)⟩

theorem NoMarks.nil : NoMarks [] :=
  ⟨by simp, by simp⟩

theorem NoMarks.cons {c : Char} {cs : List Char}
    (hc : c = '/' → cs.head? ≠ some '/' ∧ cs.head? ≠ some '*') (h : NoMarks cs) :
    NoMarks (c :: cs) := by
  constructor <;> intro hi <;> rcases List.infix_cons_iff.mp hi with ⟨r, hr⟩ | hi
  · cases hr
    exact (hc rfl).1 rfl
  · exact h.1 hi
  · cases hr
    exact (hc rfl).2 rfl
  · exact h.2 hi

/-- A text without its comments opens none. -/
theorem Uncommented.no_marks (h : Uncommented part code rest) : NoMarks code := by
  induction h with
  | nil => exact .nil
  | char hl hb h ih =>
    refine .cons (fun hc => ?_) ih
    obtain ⟨hslash, hstar⟩ := head?_ne_of_no_mark hl hb hc
    exact ⟨fun he => hslash ((h.head? he).resolve_left (by decide)),
      fun he => hstar ((h.head? he).resolve_left (by decide))⟩
  | line _ _ ih | block _ _ ih => exact .cons (by simp) ih
  | lastLine => exact .cons (by simp) .nil

/-- A token as it stands in a text: a bracket or a word. -/
def IsShown (t : Token) : Prop :=
  (∃ c, isBracket c = true ∧ t = String.ofList [c]) ∨ IsWord t.toList

/-- A token cut from a text without comments can be shown again. -/
theorem Cut.isShown {cs : List Char} {ts : List Token} (h : Cut cs ts) (hm : NoMarks cs) :
    ∀ t ∈ ts, IsShown t := by
  induction h with
  | nil => simp
  | separator _ _ ih => exact ih (hm.of_infix (List.suffix_cons _ _).isInfix)
  | @bracket c r ts hc _ ih =>
    exact List.forall_mem_cons.mpr
      ⟨.inl ⟨c, hc, rfl⟩, ih (hm.of_infix (List.suffix_cons _ _).isInfix)⟩
  | @word w r ts hne hw _ _ ih =>
    obtain ⟨hl, hb⟩ := hm.of_infix (List.prefix_append w r).isInfix
    refine List.forall_mem_cons.mpr
      ⟨.inr ?_, ih (hm.of_infix (List.suffix_append _ _).isInfix)⟩
    rw [String.toList_ofList]
    exact ⟨hne, hw, hl, hb⟩

/-- Every token of a text can be shown again. -/
theorem isShown_of_tokenize {text : String} {ts : List Token} (h : tokenize text = .ok ts) :
    ∀ t ∈ ts, IsShown t := by
  obtain ⟨code, hcode, hcut⟩ := (tokenize_eq_ok_iff text ts).mp h
  exact hcut.isShown hcode.no_marks

namespace IsShown

variable {t : Token}

theorem ne_empty (h : IsShown t) : t ≠ "" := by
  rintro rfl
  rcases h with ⟨c, -, hc⟩ | hw
  · exact absurd (congrArg String.toList hc) (by simp)
  · exact hw.ne_nil rfl

theorem not_separator (h : IsShown t) : ∀ c ∈ t.toList, isSeparator c = false := by
  intro d hd
  rcases h with ⟨c, hc, rfl⟩ | hw
  · rw [String.toList_ofList, List.mem_singleton] at hd
    rw [hd, isSeparator_of_isBracket hc]
  · exact (hw.inside d hd).1

theorem no_marks (h : IsShown t) : NoMarks t.toList := by
  rcases h with ⟨c, hc, rfl⟩ | hw
  · rw [String.toList_ofList]
    constructor <;> exact fun hi => absurd hi.length_le (by simp)
  · exact ⟨hw.no_line, hw.no_block⟩

end IsShown

/-- Tokens with a blank between each two show themselves. -/
theorem shown_intercalate {ts : List Token} (h : ∀ t ∈ ts, IsShown t) :
    Shown ts (" ".intercalate ts).toList := by
  rw [String.toList_intercalate]
  induction ts with
  | nil => exact .done
  | cons t ts ih =>
    obtain ⟨ht, hts⟩ := List.forall_mem_cons.mp h
    cases ts with
    | nil =>
      rcases ht with ⟨c, hc, rfl⟩ | hw
      · simpa [List.intercalate] using Shown.bracket hc .nil .done
      · have hs : Shown [String.ofList t.toList] (t.toList ++ ([] ++ [])) :=
          .word hw .nil (fun _ => .inl rfl) (by simp) .done
        simpa [List.intercalate] using hs
    | cons u ts =>
      have hs := ih hts
      rcases ht with ⟨c, hc, rfl⟩ | hw
      · have hb := Shown.bracket hc (.separator (c := ' ') rfl .nil) hs
        simpa [List.intercalate] using hb
      · simpa [List.intercalate] using Shown.word_blank hw hs

/-- **Texts are read by their grammar.** A text fails to have tokens if and only if it can be read
up to a block comment that is not closed, and the error names the byte where that comment starts.
It has tokens if and only if all of it can be read, and they are those that its code is cut into.
The tokens are not empty, they contain no separator and no start of a comment, and joined by blanks
they are read back. -/
theorem tokenize_iff_grammar (text : String) :
    (∀ e, tokenize text = .error e ↔
      ∃ part code body, text.toList = part ++ '/' :: '*' :: body ∧
        Uncommented part code ('/' :: '*' :: body) ∧ ¬ ['*', '/'] <:+: body ∧
        e = .unterminatedComment (String.ofList part).utf8ByteSize) ∧
    (∀ ts, tokenize text = .ok ts ↔ ∃ code, Uncommented text.toList code [] ∧ Cut code ts) ∧
    ∀ ts, tokenize text = .ok ts →
      (∀ t ∈ ts, t ≠ "" ∧ (∀ c ∈ t.toList, isSeparator c = false) ∧
        ¬ ['/', '/'] <:+: t.toList ∧ ¬ ['/', '*'] <:+: t.toList) ∧
      tokenize (" ".intercalate ts) = .ok ts := by
  refine ⟨tokenize_eq_error_iff text, tokenize_eq_ok_iff text, fun ts h => ⟨fun t ht => ?_, ?_⟩⟩
  · have hshown := isShown_of_tokenize h t ht
    exact ⟨hshown.ne_empty, hshown.not_separator, hshown.no_marks⟩
  · exact Spells.tokenize ⟨[], _, rfl, .nil, shown_intercalate (isShown_of_tokenize h)⟩

-- the star that opens the comment does not close it, and the first letter takes two bytes
example : tokenize "é /*/" = .error (.unterminatedComment 3) := by rfl

end Proviso.Token
