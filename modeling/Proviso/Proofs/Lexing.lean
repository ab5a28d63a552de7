import Mathlib.Data.List.Infix
import Proviso.Source.Token

/-!
# Texts and their tokens

How a list of tokens can be laid out as a text: words and brackets with gaps between them, where a
gap is made of separators and comments. Two words need a gap that is not empty; next to a bracket it
may be.

Main statement: a text that lays out tokens is cut into these tokens (`Spells.tokenize`).
-/

namespace Proviso.Token

/-! ### Layouts -/

/-- What may stand between two tokens: separators, comments up to the end of the line, and comments
up to the first `*/` behind their start. -/
inductive Gap : List Char → Prop where
  | nil : Gap []
  | separator {c : Char} {g : List Char} (hc : isSeparator c = true) (hg : Gap g) : Gap (c :: g)
  | line {body g : List Char} (hb : '\n' ∉ body) (hg : Gap g) :
      Gap ('/' :: '/' :: (body ++ '\n' :: g))
  | block {body g : List Char} (hb : ¬ ['*', '/'] <:+: body) (hg : Gap g) :
      Gap ('/' :: '*' :: (body ++ '*' :: '/' :: g))

/-- The characters of a token that is no bracket. -/
structure IsWord (w : List Char) : Prop where
  ne_nil : w ≠ []
  inside : ∀ c ∈ w, isSeparator c = false ∧ isBracket c = false
  no_line : ¬ ['/', '/'] <:+: w
  no_block : ¬ ['/', '*'] <:+: w

instance (w : List Char) : Decidable (IsWord w) :=
  decidable_of_iff
    (w ≠ [] ∧ (w.all fun c => !isSeparator c && !isBracket c) = true ∧
      ¬ ['/', '/'] <:+: w ∧ ¬ ['/', '*'] <:+: w)
    ⟨fun ⟨hn, hi, hl, hb⟩ => ⟨hn, by simpa using hi, hl, hb⟩,
      fun ⟨hn, hi, hl, hb⟩ => ⟨hn, by simpa using hi, hl, hb⟩⟩

/-- A text from its first token on. A comment may stand at the end of the last line. The gap behind
a word is empty only before a bracket or at the end, and a word that ends with a slash is kept
apart from a comment. -/
inductive Shown : List Token → List Char → Prop where
  | done : Shown [] []
  | comment {body : List Char} (hb : '\n' ∉ body) : Shown [] ('/' :: '/' :: body)
  | bracket {c : Char} {g r : List Char} {ts : List Token} (hc : isBracket c = true) (hg : Gap g)
      (h : Shown ts r) : Shown (String.ofList [c] :: ts) (c :: (g ++ r))
  | word {w g r : List Char} {ts : List Token} (hw : IsWord w) (hg : Gap g)
      (hgap : g = [] → ts = [] ∨ ∃ c r', r = c :: r' ∧ isBracket c = true)
      (hslash : w.getLast? = some '/' → (g ++ r).head? ≠ some '/')
      (h : Shown ts r) : Shown (String.ofList w :: ts) (w ++ (g ++ r))

/-- The text lays out the tokens. -/
def Spells (text : String) (ts : List Token) : Prop :=
  ∃ g r, text.toList = g ++ r ∧ Gap g ∧ Shown ts r

namespace Shown

/-- A word can be shown with a blank behind it. -/
theorem word_blank {t : Token} {r : List Char} {ts : List Token} (ht : IsWord t.toList)
    (h : Shown ts r) : Shown (t :: ts) (t.toList ++ ([' '] ++ r)) := by
  have hs : Shown (String.ofList t.toList :: ts) (t.toList ++ ([' '] ++ r)) :=
    .word ht (.separator rfl .nil) (by simp) (fun _ => by simp) h
  rwa [String.ofList_toList] at hs

/-- Before a bracket it needs none. -/
theorem word_bracket {t : Token} {r : List Char} {c : Char} {ts : List Token}
    (ht : IsWord t.toList) (hc : isBracket c = true) (h : Shown ts (c :: r)) :
    Shown (t :: ts) (t.toList ++ (c :: r)) := by
  have hs : Shown (String.ofList t.toList :: ts) (t.toList ++ ([] ++ (c :: r))) := by
    refine .word ht .nil (fun _ => .inr ⟨c, r, rfl, hc⟩) (fun _ he => ?_) h
    cases he
    cases hc
  rwa [String.ofList_toList] at hs

end Shown

/-! ### Comments become blanks -/

section Blank

variable {total start : Nat} {c : Char} {w body g r : List Char}

/-- No comment starts with this character. -/
theorem blankComments_cons (h : c = '/' → r.head? ≠ some '/' ∧ r.head? ≠ some '*') :
    blankComments total .code (c :: r) = (blankComments total .code r).map (c :: ·) := by
  by_cases hc : c = '/'
  · subst hc
    cases r with
    | nil => rfl
    | cons d r =>
      have hd : d ≠ '/' ∧ d ≠ '*' := by simpa using h rfl
      rw [blankComments]
      · simpa using hd.1
      · simpa using hd.2
  · rw [blankComments] <;> simp [hc]

/-- A line comment ends with its line. -/
theorem blankComments_line (hb : '\n' ∉ body) :
    blankComments total .line (body ++ '\n' :: r) = blankComments total .code r := by
  induction body with
  | nil => rfl
  | cons c body ih =>
    have hc : c ≠ '\n' := Ne.symm (List.ne_of_not_mem_cons hb)
    rw [List.cons_append, blankComments, if_neg hc, ih (List.not_mem_of_not_mem_cons hb)]

/-- The last line needs no end. -/
theorem blankComments_last_line (hb : '\n' ∉ body) :
    blankComments total .line body = .ok [] := by
  induction body with
  | nil => rfl
  | cons c body ih =>
    have hc : c ≠ '\n' := Ne.symm (List.ne_of_not_mem_cons hb)
    rw [blankComments, if_neg hc, ih (List.not_mem_of_not_mem_cons hb)]

/-- A block comment ends at the first `*/` behind it. -/
theorem blankComments_block (hb : ¬ ['*', '/'] <:+: body) :
    blankComments total (.block start) (body ++ '*' :: '/' :: r) = blankComments total .code r := by
  induction body with
  | nil => rfl
  | cons c body ih =>
    have ht : ¬ ['*', '/'] <:+: body := fun h => hb (h.trans (List.suffix_cons c body).isInfix)
    have hc : ∀ r', c = '*' → body ++ '*' :: '/' :: r = '/' :: r' → False := by
      rintro r' rfl he
      cases body with
      | nil => cases he
      | cons d body =>
        cases he
        exact hb (List.prefix_append ['*', '/'] body).isInfix
    rw [List.cons_append, blankComments, ih ht]
    exact hc

/-- A word stays as it is, unless its last slash and what follows start a comment. -/
theorem blankComments_word (hl : ¬ ['/', '/'] <:+: w) (hb : ¬ ['/', '*'] <:+: w)
    (h : w.getLast? = some '/' → r.head? ≠ some '/' ∧ r.head? ≠ some '*') :
    blankComments total .code (w ++ r) = (blankComments total .code r).map (w ++ ·) := by
  induction w with
  | nil => cases h : blankComments total .code r <;> simp [Except.map, h]
  | cons c w ih =>
    have hs := (List.suffix_cons c w).isInfix
    have hc : c = '/' → (w ++ r).head? ≠ some '/' ∧ (w ++ r).head? ≠ some '*' := by
      rintro rfl
      cases w with
      | nil => exact h rfl
      | cons d w =>
        refine ⟨fun he => hl ?_, fun he => hb ?_⟩ <;>
        · cases he
          exact (List.prefix_append [_, _] w).isInfix
    have ih := ih (fun h => hl (h.trans hs)) (fun h => hb (h.trans hs)) fun hw => h ?_
    · rw [List.cons_append, blankComments_cons hc, ih]
      cases blankComments total .code r <;> rfl
    · cases w with
      | nil => cases hw
      | cons d w => exact hw

end Blank

theorem isSeparator_slash : isSeparator '/' = false := by decide

theorem isSeparator_of_isBracket {c : Char} (h : isBracket c = true) : isSeparator c = false := by
  simp only [isBracket, Bool.or_eq_true, beq_iff_eq] at h
  rcases h with ((rfl | rfl) | rfl) | rfl <;> decide

/-- A gap becomes a run of separators, empty only if the gap is. -/
theorem Gap.blankComments {g : List Char} (h : Gap g) (total : Nat) :
    ∃ seps, (∀ c ∈ seps, isSeparator c = true) ∧ (seps = [] → g = []) ∧
      ∀ r, blankComments total .code (g ++ r)
        = (Token.blankComments total .code r).map (seps ++ ·) := by
  induction h with
  | nil =>
    refine ⟨[], by simp, fun _ => rfl, fun r => ?_⟩
    cases h : Token.blankComments total .code r <;> simp [Except.map, h]
  | @separator c g hc hg ih =>
    obtain ⟨seps, hs, -, heq⟩ := ih
    refine ⟨c :: seps, List.forall_mem_cons.mpr ⟨hc, hs⟩, by simp, fun r => ?_⟩
    have hslash : c ≠ '/' := by
      rintro rfl
      rw [isSeparator_slash] at hc
      cases hc
    rw [List.cons_append, blankComments_cons (fun h => absurd h hslash), heq]
    cases Token.blankComments total .code r <;> rfl
  | line hb hg ih =>
    obtain ⟨seps, hs, -, heq⟩ := ih
    refine ⟨' ' :: seps, List.forall_mem_cons.mpr ⟨by decide, hs⟩, by simp, fun r => ?_⟩
    rw [List.cons_append, List.cons_append, List.append_assoc, List.cons_append,
      Token.blankComments, blankComments_line hb, heq]
    cases Token.blankComments total .code r <;> rfl
  | block hb hg ih =>
    obtain ⟨seps, hs, -, heq⟩ := ih
    refine ⟨' ' :: seps, List.forall_mem_cons.mpr ⟨by decide, hs⟩, by simp, fun r => ?_⟩
    rw [List.cons_append, List.cons_append, List.append_assoc, List.cons_append, List.cons_append,
      Token.blankComments, blankComments_block hb, heq]
    cases Token.blankComments total .code r <;> rfl

/-! ### Cutting -/

/-- A token under way ends here. -/
def Breaks (cs : List Char) : Prop :=
  ∀ c r, cs = c :: r → isSeparator c = true ∨ isBracket c = true

theorem Breaks.cons {c : Char} {r : List Char} (h : isSeparator c = true ∨ isBracket c = true) :
    Breaks (c :: r) := by
  rintro d r' ⟨⟩
  exact h

/-- Before a separator or a bracket a word is complete. -/
theorem splitFrom_of_breaks {cs : List Char} (h : Breaks cs) (current : List Char) :
    splitFrom current cs = flush current ++ splitFrom [] cs := by
  cases cs with
  | nil => simp [splitFrom, flush]
  | cons c r =>
    rw [splitFrom, splitFrom]
    split
    · simp [flush]
    · next hs =>
      have hb : isBracket c = true := (h c r rfl).resolve_left (by simp [hs])
      simp [hb, flush]

/-- Separators between words are dropped. -/
theorem splitFrom_separators {seps : List Char} (h : ∀ c ∈ seps, isSeparator c = true)
    (cs : List Char) : splitFrom [] (seps ++ cs) = splitFrom [] cs := by
  induction seps with
  | nil => rfl
  | cons c seps ih =>
    obtain ⟨hc, hs⟩ := List.forall_mem_cons.mp h
    rw [List.cons_append, splitFrom, if_pos hc, ih hs]
    rfl

/-- A word is taken as a whole. -/
theorem splitFrom_word {w : List Char} (h : ∀ c ∈ w, isSeparator c = false ∧ isBracket c = false)
    (current cs : List Char) :
    splitFrom current (w ++ cs) = splitFrom (w.reverse ++ current) cs := by
  induction w generalizing current with
  | nil => rfl
  | cons c w ih =>
    obtain ⟨⟨hs, hb⟩, hw⟩ := List.forall_mem_cons.mp h
    rw [List.cons_append, splitFrom, hs, hb, if_neg Bool.false_ne_true,
      if_neg Bool.false_ne_true, ih hw]
    simp

/-- Nothing but a separator or a slash starts a gap. -/
theorem Gap.head?_ne_star {g : List Char} (h : Gap g) : g.head? ≠ some '*' := by
  cases h with
  | nil => simp
  | separator hc _ =>
    rintro he
    cases he
    exact absurd hc (by decide)
  | line _ _ | block _ _ => simp

/-- Nor does a text without tokens, or one with a bracket in front, start with a star. -/
theorem Shown.head?_ne_star {ts : List Token} {r : List Char} (h : Shown ts r)
    (hr : ts = [] ∨ ∃ c r', r = c :: r' ∧ isBracket c = true) : r.head? ≠ some '*' := by
  rcases hr with rfl | ⟨c, r', rfl, hc⟩
  · cases h <;> simp
  · rintro he
    cases he
    exact absurd hc (by decide)

/-- The text of tokens is cut into them. Where it is empty or starts with a bracket, a word before
it ends. -/
theorem Shown.split {ts : List Token} {r : List Char} (h : Shown ts r) (total : Nat) :
    ∃ cs, blankComments total .code r = .ok cs ∧ splitFrom [] cs = ts ∧
      ((ts = [] ∨ ∃ c r', r = c :: r' ∧ isBracket c = true) → Breaks cs) := by
  induction h with
  | done => exact ⟨[], rfl, rfl, fun _ => by rintro _ _ ⟨⟩⟩
  | comment hb =>
    refine ⟨[' '], ?_, rfl, fun _ => .cons (.inl (by decide))⟩
    rw [blankComments, blankComments_last_line hb]
    rfl
  | @bracket c g r ts hc hg h ih =>
    obtain ⟨cs, hcs, hts, -⟩ := ih
    obtain ⟨seps, hseps, -, heq⟩ := hg.blankComments total
    have hsep := isSeparator_of_isBracket hc
    refine ⟨c :: (seps ++ cs), ?_, ?_, fun _ => .cons (.inr hc)⟩
    · rw [blankComments_cons, heq, hcs]
      · rfl
      · rintro rfl
        exact absurd hc (by decide)
    · rw [splitFrom, hsep, hc, if_neg Bool.false_ne_true, if_pos rfl, splitFrom_separators hseps,
        hts]
      rfl
  | @word w g r ts hw hg hgap hslash h ih =>
    obtain ⟨cs, hcs, hts, hbreaks⟩ := ih
    obtain ⟨seps, hseps, hnil, heq⟩ := hg.blankComments total
    refine ⟨w ++ (seps ++ cs), ?_, ?_, ?_⟩
    · rw [blankComments_word hw.no_line hw.no_block, heq, hcs]
      · rfl
      · intro hl
        refine ⟨hslash hl, ?_⟩
        cases g with
        | nil => exact h.head?_ne_star (hgap rfl)
        | cons d g => exact hg.head?_ne_star
    · -- the word ends at the first separator, or where nothing separates it from what follows
      have hb : Breaks (seps ++ cs) := by
        cases seps with
        | nil => exact hbreaks (hgap (hnil rfl))
        | cons d seps => exact .cons (.inl (hseps d (.head _)))
      rw [splitFrom_word hw.inside, splitFrom_of_breaks hb, splitFrom_separators hseps, hts]
      simp [flush, hw.ne_nil]
    · -- a word starts with no bracket
      rintro (he | ⟨c, r', he, hc⟩)
      · cases he
      · obtain ⟨d, w', rfl⟩ := List.exists_cons_of_ne_nil hw.ne_nil
        cases he
        exact absurd hc (Bool.eq_false_iff.mp (hw.inside c (.head _)).2)

/-- A text is cut into the tokens that it lays out. -/
theorem Spells.tokenize {text : String} {ts : List Token} (h : Spells text ts) :
    tokenize text = .ok ts := by
  obtain ⟨g, r, ht, hg, hr⟩ := h
  obtain ⟨seps, hseps, -, heq⟩ := hg.blankComments (byteLength text.toList)
  obtain ⟨cs, hcs, hts, -⟩ := hr.split (byteLength text.toList)
  have hb : blankComments (byteLength text.toList) .code text.toList = .ok (seps ++ cs) := by
    have hgap := heq r
    rwa [hcs, ← ht] at hgap
  rw [Token.tokenize, hb]
  show Except.ok (splitFrom [] (seps ++ cs)) = _
  rw [splitFrom_separators hseps, hts]

end Proviso.Token
