import Proviso.Diagnostic
import Proviso.Proofs.Grammar
import Proviso.Source.Compile

/-!
# Tokens found in a text

A diagnostic looks for a token that stands by itself: no letter, number or underscore is next to it
(`Whole`). The search goes from left to right over the occurrences of the token. It passes one that
does not stand by itself as a whole, and with it every occurrence that starts inside it. The
occurrences that it comes to (`Scanned`) are the first one, and behind each of them the next; no two
of them overlap (`Scanned.apart`).

Main statement: `locate_first_whole`, which says for every text and token what is found. What is
missed starts inside an occurrence that the search comes to and that does not stand by itself. That
can happen (`locate_misses_overlap`), but not to a token of letters, numbers and underscores
(`locate_first_of_word`).
-/

namespace Proviso.Diagnostic

open Token (byteLength byteLength_cons byteLength_append)

/-! ### Occurrences -/

/-- Nothing stands here that could belong to a word: no letter, no number and no underscore. -/
def Clear (c? : Option Char) : Prop :=
  ∀ c, c? = some c → Text.isAlphanumeric c = false ∧ c ≠ '_'

theorem isEdge_iff {c? : Option Char} : isEdge c? = true ↔ Clear c? := by
  cases c? <;> simp [isEdge, Clear]

/-- The token stands by itself between two parts of the text. -/
structure Whole (source token before after : List Char) : Prop where
  split : source = before ++ (token ++ after)
  left : Clear before.getLast?
  right : Clear after.head?

/-- The token occurs behind a part of the text. -/
def Occurs (source token before : List Char) : Prop :=
  ∃ after, source = before ++ (token ++ after)

/-- The first occurrence that starts behind so many characters or later. -/
structure First (source token : List Char) (start : Nat) (before : List Char) : Prop where
  occurs : Occurs source token before
  start_le : start ≤ before.length
  least {other : List Char} (ho : Occurs source token other) (hs : start ≤ other.length) :
    before.length ≤ other.length

/-- An occurrence that a search from left to right comes to: the first, or the next one behind
another that it comes to. -/
inductive Scanned (source token : List Char) : List Char → Prop where
  | first {before : List Char} (h : First source token 0 before) : Scanned source token before
  | next {earlier before : List Char} (he : Scanned source token earlier)
      (h : First source token (earlier.length + token.length) before) :
      Scanned source token before

/-- The place behind `before` lies inside an earlier occurrence of the token that the search comes
to, and which does not stand by itself. -/
def Hidden (source token before : List Char) : Prop :=
  ∃ earlier after, Scanned source token earlier ∧ source = earlier ++ (token ++ after) ∧
    ¬ Whole source token earlier after ∧
    earlier.length < before.length ∧ before.length < earlier.length + token.length

/-- An occurrence ends where a first part of the text does. -/
theorem append_prefix_of_split {source token before after : List Char}
    (hs : source = before ++ (token ++ after)) : before ++ token <+: source :=
  ⟨after, by rw [hs, List.append_assoc]⟩

/-- The search comes to occurrences only. -/
theorem Scanned.occurs {source token before : List Char} (h : Scanned source token before) :
    Occurs source token before := by
  cases h with
  | first h => exact h.occurs
  | next _ h => exact h.occurs

/-- Of two occurrences that the search comes to, one ends before the other starts. -/
theorem Scanned.apart {source token a b : List Char} (ha : Scanned source token a)
    (hb : Scanned source token b) (hab : a.length < b.length) :
    a.length + token.length ≤ b.length := by
  rcases Nat.eq_zero_or_pos token.length with hzero | hpos
  · omega
  -- by the length of the text before the later one
  induction hn : b.length using Nat.strongRecOn generalizing a b with
  | ind n ih =>
    subst hn
    cases hb with
    | first h => exact absurd (h.least ha.occurs (Nat.zero_le _)) (Nat.not_le.mpr hab)
    | @next e _ he h =>
      -- the earlier one is not behind the one from which the search went on
      have hlt : a.length < e.length + token.length :=
        Nat.lt_of_not_le fun hle => absurd (h.least ha.occurs hle) (Nat.not_le.mpr hab)
      have hle := h.start_le
      rcases Nat.lt_trichotomy a.length e.length with hae | hae | hae
      · have := ih e.length (by omega) ha he hae rfl
        omega
      · omega
      · have := ih a.length hab he ha hae rfl
        omega

/-! ### The search -/

variable {source token before rest found after : List Char}

/-- What the search asks at one place. -/
theorem whole_reverse_iff (hs : source = before.reverse ++ (token ++ after)) :
    Whole source token before.reverse after ↔
      (isEdge before.head? && isEdge after.head?) = true := by
  rw [Bool.and_eq_true, isEdge_iff, isEdge_iff, ← List.getLast?_reverse]
  exact ⟨fun h => ⟨h.left, h.right⟩, fun h => ⟨hs, h.1, h.2⟩⟩

/-- A search under way: the text is what it has passed and the rest, and the next occurrence from
here on is one that it comes to. -/
structure Scanning (source token before rest : List Char) : Prop where
  split : source = before.reverse ++ rest
  next (hne : token ≠ []) {b : List Char} (h : First source token before.length b) :
    Scanned source token b

namespace Scanning

/-- It starts with nothing behind it. -/
theorem start (source token : List Char) : Scanning source token [] source where
  split := rfl
  next _ _ h := .first h

/-- An occurrence at the place of the search is one that it comes to. -/
theorem here (h : Scanning source token before (token ++ after)) (hne : token ≠ []) :
    Scanned source token before.reverse :=
  h.next hne
    { occurs := ⟨after, h.split⟩
      start_le := Nat.le_of_eq List.length_reverse.symm
      least := fun _ hs => by rwa [List.length_reverse] }

/-- Where the token does not occur the search goes on by one character. -/
theorem pass {c : Char} {r : List Char} (h : Scanning source token before (c :: r))
    (hstarts : ¬ token.isPrefixOf (c :: r) = true) : Scanning source token (c :: before) r where
  split := by rw [h.split, List.reverse_cons, List.append_assoc, List.singleton_append]
  next hne b hb := by
    refine h.next hne ⟨hb.occurs, Nat.le_of_succ_le hb.start_le, fun {other} ho hs => ?_⟩
    refine hb.least ho (Nat.lt_of_le_of_ne hs fun heq => hstarts ?_)
    obtain ⟨after, ho⟩ := ho
    have hrest : token ++ after = c :: r :=
      (List.append_inj (ho.symm.trans h.split) (by rw [← heq, List.length_reverse])).2
    exact List.isPrefixOf_iff_prefix.mpr ⟨after, hrest⟩

/-- Where it does, but not by itself, the search goes on behind it. -/
theorem skip {c : Char} {r : List Char} (h : Scanning source token before (c :: r))
    (hstarts : token.isPrefixOf (c :: r) = true) :
    Scanning source token ((c :: r.take (token.length - 1)).reverse ++ before)
      (r.drop (token.length - 1)) where
  split := by
    rw [h.split, List.reverse_append, List.reverse_reverse, List.append_assoc, List.cons_append,
      List.take_append_drop]
  next hne b hb := by
    obtain ⟨after, hafter⟩ := List.isPrefixOf_iff_prefix.mp hstarts
    have hlen : 0 < token.length := List.length_pos_iff.mpr hne
    have htoken := (List.isPrefixOf_iff_prefix.mp hstarts).length_le
    rw [← hafter] at h
    refine .next (h.here hne) ?_
    have hend : before.reverse.length + token.length
        = ((c :: r.take (token.length - 1)).reverse ++ before).length := by
      simp only [List.length_append, List.length_reverse, List.length_cons, List.length_take]
      rw [List.length_cons] at htoken
      omega
    rwa [hend]

end Scanning

/-- What is found stands by itself, and the search comes to it. -/
theorem locateFrom_sound (hscan : Scanning source token before rest)
    (h : locateFrom token before rest = some found) :
    (∃ after, Whole source token found after) ∧ (token ≠ [] → Scanned source token found) := by
  fun_induction locateFrom token before rest with
  | case1 before rest hstarts hedges =>
    cases h
    obtain ⟨after, rfl⟩ := List.isPrefixOf_iff_prefix.mp hstarts
    rw [List.drop_left] at hedges
    exact ⟨⟨after, (whole_reverse_iff hscan.split).mpr hedges⟩, hscan.here⟩
  | case2 | case4 => cases h
  | case3 before c r hstarts _ ih => exact ih (hscan.skip hstarts) h
  | case5 before c r hstarts ih => exact ih (hscan.pass hstarts) h

/-- A place that the search goes past has no token that stands by itself. -/
theorem Whole.length_lt (hw : Whole source token found after)
    (hs : source = before.reverse ++ rest) (hlen : before.length ≤ found.length)
    (hpast : token.isPrefixOf rest = true →
      ¬ (isEdge before.head? && isEdge (rest.drop token.length).head?) = true) :
    before.length < found.length := by
  refine Nat.lt_of_le_of_ne hlen fun heq => ?_
  obtain ⟨rfl, rfl⟩ : found = before.reverse ∧ token ++ after = rest :=
    List.append_inj (hw.split.symm.trans hs) (by rw [← heq, List.length_reverse])
  refine hpast (List.isPrefixOf_iff_prefix.mpr (List.prefix_append token after)) ?_
  rw [List.drop_left]
  exact (whole_reverse_iff hs).mp hw

theorem Whole.length_le (hw : Whole source token found after)
    (hs : source = before.reverse ++ rest) : found.length ≤ before.length + rest.length := by
  have hlen := congrArg List.length (hw.split.symm.trans hs)
  simp only [List.length_append, List.length_reverse] at hlen
  omega

/-- The search misses nothing but what is hidden. -/
theorem locateFrom_complete (hw : Whole source token found after)
    (hscan : Scanning source token before rest) (hlen : before.length ≤ found.length) :
    (∃ first, locateFrom token before rest = some first ∧ first.length ≤ found.length) ∨
      Hidden source token found := by
  have hs := hscan.split
  fun_induction locateFrom token before rest with
  | case1 before rest _ _ => exact .inl ⟨_, rfl, by rwa [List.length_reverse]⟩
  | case2 before _ hedges =>
    exact absurd (hw.length_lt hs hlen fun _ => hedges) (Nat.not_lt.mpr (hw.length_le hs))
  | case3 before c r hstarts hedges ih =>
    have hlt := hw.length_lt hs hlen fun _ => hedges
    by_cases hinside : found.length < before.length + token.length
    · -- the occurrence at this place covers the start of the one in question
      have hne : token ≠ [] := by
        rintro rfl
        exact absurd hinside (Nat.not_lt.mpr (Nat.le_of_lt hlt))
      obtain ⟨behind, hbehind⟩ := List.isPrefixOf_iff_prefix.mp hstarts
      rw [← hbehind] at hs hedges hscan
      rw [List.drop_left] at hedges
      refine .inr ⟨before.reverse, behind, hscan.here hne, hs,
        fun hw' => hedges ((whole_reverse_iff hs).mp hw'), ?_, ?_⟩ <;> rwa [List.length_reverse]
    · have hscan' := hscan.skip hstarts
      have htoken := (List.isPrefixOf_iff_prefix.mp hstarts).length_le
      rw [List.length_cons] at htoken
      refine ih hscan' ?_ hscan'.split
      simp only [List.length_append, List.length_reverse, List.length_cons, List.length_take]
      omega
  | case4 before hstarts =>
    exact absurd (hw.length_lt hs hlen fun h => absurd h hstarts)
      (Nat.not_lt.mpr (hw.length_le hs))
  | case5 before c r hstarts ih =>
    have hscan' := hscan.pass hstarts
    exact ih hscan' (hw.length_lt hs hlen fun h => absurd h hstarts) hscan'.split

/-- An occurrence that stands by itself is hidden only if the token has a character, not its last,
that belongs to no word. -/
theorem Whole.not_hidden (hw : Whole source token found after)
    (hword : ∀ c ∈ token.dropLast, ¬ Clear (some c)) : ¬ Hidden source token found := by
  rintro ⟨earlier, behind, -, hs, -, hlt, hinside⟩
  have hfound : found <+: source := ⟨_, hw.split.symm⟩
  have hearlier : earlier <+: source := ⟨_, hs.symm⟩
  have htoken := append_prefix_of_split hs
  obtain ⟨part, rfl⟩ := List.prefix_of_prefix_length_le hearlier hfound (Nat.le_of_lt hlt)
  rw [List.length_append] at hlt hinside
  have hpart : part <+: token := by
    rw [← List.prefix_append_right_inj earlier]
    exact List.prefix_of_prefix_length_le hfound htoken
      (by rw [List.length_append, List.length_append]; omega)
  have hdropLast : part <+: token.dropLast :=
    List.prefix_of_prefix_length_le hpart (List.dropLast_prefix token)
      (by rw [List.length_dropLast]; omega)
  -- the character in front of the token is one of its own
  have hne : part ≠ [] := by
    rintro rfl
    simp at hlt
  have hlast : (earlier ++ part).getLast? = some (part.getLast hne) := by
    rw [List.getLast?_append_of_ne_nil _ hne, List.getLast?_eq_some_getLast hne]
  refine hword _ (hdropLast.subset (List.getLast_mem hne)) ?_
  rw [← hlast]
  exact hw.left

/-! ### Bytes -/

/-- First parts of a text rank by their bytes as by their characters. -/
theorem byteLength_lt_iff {l l' : List Char} (hl : l <+: source) (hl' : l' <+: source) :
    byteLength l < byteLength l' ↔ l.length < l'.length := by
  have hmono : ∀ {p q : List Char}, p <+: q → p.length < q.length →
      byteLength p < byteLength q := by
    rintro p - ⟨r, rfl⟩ hlt
    cases r with
    | nil => simp at hlt
    | cons c r =>
      rw [byteLength_append, byteLength_cons]
      exact Nat.lt_add_of_pos_right (Nat.add_pos_left c.utf8Size_pos _)
  rcases Nat.lt_trichotomy l.length l'.length with h | h | h
  · exact iff_of_true (hmono (List.prefix_of_prefix_length_le hl hl' (Nat.le_of_lt h)) h) h
  · rw [(List.prefix_of_prefix_length_le hl hl' (Nat.le_of_eq h)).eq_of_length h]
    exact iff_of_false (Nat.lt_irrefl _) (Nat.lt_irrefl _)
  · have hbytes := hmono (List.prefix_of_prefix_length_le hl' hl (Nat.le_of_lt h)) h
    exact iff_of_false (Nat.not_lt.mpr (Nat.le_of_lt hbytes)) (Nat.not_lt.mpr (Nat.le_of_lt h))

/-- A first part of a text is determined by its bytes. -/
theorem eq_of_byteLength_eq {l l' : List Char} (hl : l <+: source) (hl' : l' <+: source)
    (h : byteLength l = byteLength l') : l = l' := by
  have hlt := byteLength_lt_iff hl hl'
  have hgt := byteLength_lt_iff hl' hl
  have hlen : l.length = l'.length := by omega
  exact (List.prefix_of_prefix_length_le hl hl' (Nat.le_of_eq hlen)).eq_of_length hlen

/-- The search comes to an occurrence of the token at a byte of the text. -/
def ScannedAt (source token : String) (i : Nat) : Prop :=
  ∃ before, Scanned source.toList token.toList before ∧ byteLength before = i

/-- The token stands by itself at a byte of the text. -/
def WholeAt (source token : String) (i : Nat) : Prop :=
  ∃ before after, Whole source.toList token.toList before after ∧ byteLength before = i

/-- The byte lies inside an occurrence of the token that starts earlier, that the search comes to,
and that does not stand by itself. -/
def HiddenAt (source token : String) (i : Nat) : Prop :=
  ∃ j, ScannedAt source token j ∧ ¬ WholeAt source token j ∧ j < i ∧
    i < j + byteLength token.toList

/-- A hidden place is hidden at its byte. -/
theorem Hidden.at_byte {source token : String} {found : List Char}
    (h : Hidden source.toList token.toList found) (hfound : found <+: source.toList) :
    HiddenAt source token (byteLength found) := by
  obtain ⟨earlier, after, hscanned, hs, hnot, hlt, hinside⟩ := h
  have hearlier : earlier <+: source.toList := ⟨_, hs.symm⟩
  have htoken := append_prefix_of_split hs
  refine ⟨byteLength earlier, ⟨earlier, hscanned, rfl⟩, ?_,
    (byteLength_lt_iff hearlier hfound).mpr hlt, ?_⟩
  · rintro ⟨before, behind, hw, hbytes⟩
    obtain rfl := eq_of_byteLength_eq ⟨_, hw.split.symm⟩ hearlier hbytes
    obtain rfl : behind = after :=
      List.append_cancel_left (List.append_cancel_left (hw.split.symm.trans hs))
    exact hnot hw
  · rw [← byteLength_append]
    exact (byteLength_lt_iff hfound htoken).mpr (by rwa [List.length_append])

/-- What the search comes to lies inside no other occurrence that it comes to. -/
theorem not_hiddenAt_of_scanned {source token : String} {found : List Char}
    (h : Scanned source.toList token.toList found) :
    ¬ HiddenAt source token (byteLength found) := by
  rintro ⟨-, ⟨earlier, hearlier, rfl⟩, -, hlt, hinside⟩
  obtain ⟨after, hs⟩ := hearlier.occurs
  obtain ⟨behind, hs'⟩ := h.occurs
  have htoken := append_prefix_of_split hs
  rw [byteLength_lt_iff ⟨_, hs.symm⟩ ⟨_, hs'.symm⟩] at hlt
  rw [← byteLength_append, byteLength_lt_iff ⟨_, hs'.symm⟩ htoken, List.length_append] at hinside
  exact absurd (hearlier.apart h hlt) (Nat.not_le.mpr hinside)

/-! ### The first occurrence -/

/-- What is found is a whole occurrence. -/
theorem locate_sound {source token : String} {found : List Char}
    (h : locate source token = some found) :
    ∃ after, Whole source.toList token.toList found after :=
  (locateFrom_sound (.start _ _) h).1

/-- The search stops at or before a token that stands by itself, unless that one is hidden. -/
theorem locate_le {source token : String} {found after : List Char}
    (hw : Whole source.toList token.toList found after) :
    (∃ i, (locate source token).map byteLength = some i ∧ i ≤ byteLength found) ∨
      Hidden source.toList token.toList found := by
  have hsearch : (∃ first, locate source token = some first ∧ first.length ≤ found.length) ∨
      Hidden source.toList token.toList found := locateFrom_complete hw (.start _ _) (Nat.zero_le _)
  rcases hsearch with ⟨first, hfirst, hle⟩ | hidden
  · obtain ⟨behind, hw'⟩ := locate_sound hfirst
    refine .inl ⟨_, congrArg (Option.map byteLength) hfirst, Nat.not_lt.mp fun hlt => ?_⟩
    rw [byteLength_lt_iff ⟨_, hw.split.symm⟩ ⟨_, hw'.split.symm⟩] at hlt
    exact absurd hlt (Nat.not_lt.mpr hle)
  · exact .inr hidden

/-- What is found stands by itself and is not hidden. -/
theorem wholeAt_of_locate {source token : String} {i : Nat}
    (h : (locate source token).map byteLength = some i) :
    WholeAt source token i ∧ ¬ HiddenAt source token i := by
  obtain ⟨found, hfound, rfl⟩ := Option.map_eq_some_iff.mp h
  obtain ⟨⟨after, hw⟩, hscanned⟩ := locateFrom_sound (.start _ _) hfound
  refine ⟨⟨found, after, hw, rfl⟩, ?_⟩
  by_cases hne : token.toList = []
  · -- nothing lies inside an occurrence without characters
    rintro ⟨j, -, -, hlt, hinside⟩
    rw [hne] at hinside
    exact absurd hinside (Nat.not_lt.mpr (Nat.le_of_lt hlt))
  · exact not_hiddenAt_of_scanned (hscanned hne)

/-- What stands by itself and is not hidden is found, unless something before it is. -/
theorem locate_le_of_wholeAt {source token : String} {k : Nat} (hw : WholeAt source token k) :
    (∃ i, (locate source token).map byteLength = some i ∧ i ≤ k) ∨ HiddenAt source token k := by
  obtain ⟨before, after, hw, rfl⟩ := hw
  rcases locate_le hw with hfound | hidden
  · exact .inl hfound
  · exact .inr (hidden.at_byte ⟨_, hw.split.symm⟩)

/-- What finds only places with a property, and one no later than any of them, finds the first. -/
theorem eq_some_iff_first {P : Nat → Prop} {o : Option Nat} (hsound : ∀ {i}, o = some i → P i)
    (hle : ∀ {k}, P k → ∃ i, o = some i ∧ i ≤ k) {i : Nat} :
    o = some i ↔ P i ∧ ∀ k < i, ¬ P k := by
  constructor
  · refine fun hi => ⟨hsound hi, fun k hk hP => ?_⟩
    obtain ⟨j, hj, hjk⟩ := hle hP
    obtain rfl : i = j := Option.some.inj (hi.symm.trans hj)
    exact absurd hk (Nat.not_lt.mpr hjk)
  · rintro ⟨hP, hfirst⟩
    obtain ⟨j, hj, hji⟩ := hle hP
    have hij : ¬ j < i := fun hlt => hfirst j hlt (hsound hj)
    rw [hj, Nat.le_antisymm hji (Nat.not_lt.mp hij)]

/-- **A token is found where it first stands by itself, unless that place is hidden.** The byte
that is found is one where the token occurs with no letter, number or underscore on either side, and
it is the first of these that is not hidden: that does not lie inside an occurrence of the token
which the search comes to before and which has such a neighbour. Nothing is found exactly if all of
them are hidden. -/
theorem locate_first_whole (source token : String) :
    (∀ i, (locate source token).map byteLength = some i ↔
      WholeAt source token i ∧ ¬ HiddenAt source token i ∧
        ∀ k < i, WholeAt source token k → HiddenAt source token k) ∧
    (locate source token = none ↔
      ∀ k, WholeAt source token k → HiddenAt source token k) := by
  refine ⟨fun i => ?_, fun hnone k hk => ?_, fun hall => ?_⟩
  · have hle : ∀ {k}, WholeAt source token k ∧ ¬ HiddenAt source token k →
        ∃ j, (locate source token).map byteLength = some j ∧ j ≤ k :=
      fun hk => (locate_le_of_wholeAt hk.1).resolve_right hk.2
    rw [eq_some_iff_first wholeAt_of_locate hle, and_assoc]
    simp only [not_and_not_right]
  · refine (locate_le_of_wholeAt hk).resolve_left ?_
    rintro ⟨j, hj, -⟩
    rw [hnone] at hj
    cases hj
  · cases hfound : locate source token with
    | none => rfl
    | some found =>
      obtain ⟨hwhole, hnot⟩ := wholeAt_of_locate (congrArg (Option.map byteLength) hfound)
      exact absurd (hall _ hwhole) hnot

/-- The field of a sum over structs is too long for a name, and stands by itself at the end of the
text. But it also occurs one word earlier, behind an underscore, and there it covers the place. -/
theorem locate_misses_overlap :
    let source := "sumOf my_account_balances.account_balances.account_balances"
    let token := "account_balances.account_balances"
    compile source = .error (.nameTooLong token) ∧ locate source token = none ∧
      WholeAt source token 26 := by
  refine ⟨by decide +kernel, by decide +kernel, "sumOf my_account_balances.".toList, [], ?_, ?_⟩
  · exact ⟨by decide +kernel, isEdge_iff.mp (by decide +kernel), isEdge_iff.mp rfl⟩
  · decide +kernel

/-- A token of letters, numbers and underscores, its last character apart, is found at the first
byte where it stands by itself. -/
theorem locate_first_of_word {source token : String}
    (hword : ∀ c ∈ token.toList.dropLast, ¬ Clear (some c)) (i : Nat) :
    (locate source token).map byteLength = some i ↔
      WholeAt source token i ∧ ∀ k < i, ¬ WholeAt source token k := by
  have hle : ∀ {k}, WholeAt source token k →
      ∃ j, (locate source token).map byteLength = some j ∧ j ≤ k := by
    rintro k ⟨before, after, hw, rfl⟩
    exact (locate_le hw).resolve_right (hw.not_hidden hword)
  exact eq_some_iff_first (fun hi => (wholeAt_of_locate hi).1) hle

end Proviso.Diagnostic
