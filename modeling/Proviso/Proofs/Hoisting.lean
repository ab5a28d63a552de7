import Proviso.Source.Body

/-!
# Programs with bodies in between

A program is written as an interleaving (`Body.Interleaving`): tokens of the main block, and between
them bodies in braces, each behind a label of its own and some behind the word `branch` as well. The
scan that moves the bodies looks at one or two tokens ahead and has an error for whatever does not
fit. It accepts exactly the interleavings, and it loses, repeats and reorders nothing: the main
block comes first, then the bodies in the order in which they are written.

The proof follows the scan: a body up to its brace (`cut_eq_ok_iff`), a body under its label
(`labelled_eq_ok_iff`), one item (`piece_eq_ok_iff`), all items (`pieces_eq_ok_iff`).

Main statement: `hoist_iff_interleaving`.
-/

namespace Proviso.Body

/-! ### Items -/

/-- A part of a program as it is written: a token of the main block, or a body behind its label,
without the word `branch` in front or with it. -/
inductive Item where
  | token (t : Token)
  | bare (label : Token) (body : List Token)
  | branch (label : Token) (body : List Token)

/-- The token is a brace. -/
def IsBrace (t : Token) : Prop :=
  t = Token.lbrace ∨ t = Token.rbrace

/-- A token that can name a body: no name of the registry, no numeral and no parenthesis. -/
structure IsLabel (reg : Registry) (t : Token) : Prop where
  unknown : reg.lookup? t = none
  not_numeric : Token.isNumeric t = false
  not_paren : t ≠ "(" ∧ t ≠ ")"

namespace Item

/-- The tokens of an item. -/
def tokens : Item → List Token
  | .token t       => [t]
  | .bare l body   => l :: Token.lbrace :: (body ++ [Token.rbrace])
  | .branch l body => "branch" :: l :: Token.lbrace :: (body ++ [Token.rbrace])

/-- The token of the main block. -/
def main? : Item → Option Token
  | .token t                => some t
  | .bare _ _ | .branch _ _ => none

/-- The body, with its label. -/
def body? : Item → Option (Token × List Token)
  | .token _                      => none
  | .bare l body | .branch l body => some (l, body)

/-- What may be written. Behind `branch` every label will do; without it the label must not be taken
for something else. -/
inductive Legal (reg : Registry) : Item → Prop where
  | token {t : Token} (not_brace : ¬ IsBrace t) (not_branch : t ≠ "branch") : Legal reg (.token t)
  | bare {l : Token} {body : List Token} (label : IsLabel reg l) (not_brace : ¬ IsBrace l)
      (not_branch : l ≠ "branch") (flat : ∀ t ∈ body, ¬ IsBrace t) : Legal reg (.bare l body)
  | branch {l : Token} {body : List Token} (label : IsLabel reg l)
      (flat : ∀ t ∈ body, ¬ IsBrace t) : Legal reg (.branch l body)

end Item

/-- The labels of the bodies, in order. -/
def labelsOf (items : List Item) : List Token :=
  (items.filterMap Item.body?).map (·.1)

/-- Legal items whose labels are different from each other. -/
structure Interleaving (reg : Registry) (items : List Item) : Prop where
  legal : ∀ i ∈ items, i.Legal reg
  distinct : (labelsOf items).Nodup

/-- The main block and behind it the bodies, each of them closed; a main block without bodies is
left as it is. -/
def hoisted (items : List Item) : List Token :=
  let main := items.filterMap Item.main?
  let bodies := items.filterMap Item.body?
  if bodies = [] then main
  else closed main ++ bodies.flatMap fun b => b.1 :: closed b.2

/-! ### One item -/

variable {reg : Registry} {seen : List Token}

/-- A body goes up to its first brace, which closes it. -/
theorem cut_eq_ok_iff {label previous : Token} {r body rest : List Token} :
    cut label previous r = .ok (body, rest) ↔
      r = body ++ Token.rbrace :: rest ∧ ∀ t ∈ body, ¬ IsBrace t := by
  induction r generalizing previous body with
  | nil => simp [cut]
  | cons t r ih =>
    rw [cut]
    by_cases ho : t = Token.lbrace
    · rw [if_pos ho]
      constructor
      · rintro ⟨⟩
      · rintro ⟨hr, hflat⟩
        cases body with
        | nil => cases hr; exact absurd ho (by decide)
        | cons u body => cases hr; exact absurd (.inl ho) (hflat t List.mem_cons_self)
    · rw [if_neg ho]
      by_cases hc : t = Token.rbrace
      · rw [if_pos hc]
        constructor
        · intro h
          cases h
          exact ⟨by rw [hc]; rfl, by simp⟩
        · rintro ⟨hr, hflat⟩
          cases body with
          | nil => cases hr; rfl
          | cons u body => cases hr; exact absurd (.inr hc) (hflat t List.mem_cons_self)
      · have ht : ¬ IsBrace t := fun hb => hb.elim ho hc
        rw [if_neg hc]
        constructor
        · intro h
          cases hcut : cut label t r with
          | error e => rw [hcut] at h; cases h
          | ok p =>
            rw [hcut] at h
            cases h
            obtain ⟨hr, hflat⟩ := ih.mp hcut
            exact ⟨by rw [hr]; rfl, List.forall_mem_cons.mpr ⟨ht, hflat⟩⟩
        · rintro ⟨hr, hflat⟩
          cases body with
          | nil => cases hr; exact absurd rfl hc
          | cons u body =>
            cases hr
            rw [ih.mpr ⟨rfl, (List.forall_mem_cons.mp hflat).2⟩]
            rfl

/-- A token that is not reserved can be a label. -/
theorem isReserved_eq_false_iff {t : Token} : isReserved reg t = false ↔ IsLabel reg t := by
  simp only [isReserved, Bool.or_eq_false_iff, Option.isSome_eq_false_iff,
    Option.isNone_iff_eq_none, beq_eq_false_iff_ne]
  exact ⟨fun ⟨⟨⟨h₁, h₂⟩, h₃⟩, h₄⟩ => ⟨h₁, h₂, h₃, h₄⟩, fun ⟨h₁, h₂, h₃, h₄⟩ => ⟨⟨⟨h₁, h₂⟩, h₃⟩, h₄⟩⟩

/-- A label of its own, and behind the open brace a body up to the next brace, which closes it. -/
theorem labelled_eq_ok_iff {label : Token} {r rest : List Token} {p : Piece} :
    labelled reg seen label r = .ok (p, rest) ↔
      IsLabel reg label ∧ label ∉ seen ∧
        ∃ body, p = .body label body ∧ r = body ++ Token.rbrace :: rest ∧
          ∀ t ∈ body, ¬ IsBrace t := by
  rw [labelled]
  cases hres : isReserved reg label with
  | true =>
    have hno : ¬ IsLabel reg label := fun h => by
      rw [isReserved_eq_false_iff.mpr h] at hres
      cases hres
    simp [hno]
  | false =>
    have hlabel := isReserved_eq_false_iff.mp hres
    by_cases hseen : label ∈ seen
    · simp [hseen]
    · simp only [Bool.false_eq_true, if_false, List.contains_iff_mem, hseen, hlabel,
        not_false_eq_true, true_and]
      constructor
      · intro h
        cases hcut : cut label Token.lbrace r with
        | error e => rw [hcut] at h; cases h
        | ok q =>
          rw [hcut] at h
          cases h
          exact ⟨_, rfl, cut_eq_ok_iff.mp hcut⟩
      · rintro ⟨body, rfl, hbody⟩
        rw [cut_eq_ok_iff.mpr hbody]
        rfl

/-- What the scan makes of an item. -/
def Item.piece : Item → Piece
  | .token t                      => .main t
  | .bare l body | .branch l body => .body l body

/-- One item is scanned as it is written, if its label is new; behind a token of the main block no
brace may follow, for it would make the token a label. -/
theorem piece_eq_ok_iff {t : Token} {r rest : List Token} {p : Piece} :
    piece reg seen t r = .ok (p, rest) ↔
      ∃ i : Item, i.Legal reg ∧ i.piece = p ∧ t :: r = i.tokens ++ rest ∧
        (∀ l ∈ p.label?, l ∉ seen) ∧ (p.label? = none → rest.head? ≠ some Token.lbrace) := by
  constructor
  · intro h
    unfold piece at h
    split at h
    · next hbranch =>
      subst hbranch
      split at h
      · next label r =>
        obtain ⟨hlabel, hseen, body, rfl, rfl, hflat⟩ := labelled_eq_ok_iff.mp h
        exact ⟨.branch label body, .branch hlabel hflat, rfl, by simp [Item.tokens],
          by simpa [Piece.label?] using hseen, by rintro ⟨⟩⟩
      · cases h
    · next hbranch =>
      split at h
      · cases h
      · next hopen =>
        split at h
        · cases h
        · next hclose =>
          have hbrace : ¬ IsBrace t := fun hb => hb.elim hopen hclose
          split at h
          · next r =>
            obtain ⟨hlabel, hseen, body, rfl, rfl, hflat⟩ := labelled_eq_ok_iff.mp h
            exact ⟨.bare t body, .bare hlabel hbrace hbranch hflat, rfl, by simp [Item.tokens],
              by simpa [Piece.label?] using hseen, by rintro ⟨⟩⟩
          · next hr =>
            cases h
            refine ⟨.token t, .token hbrace hbranch, rfl, rfl, by rintro _ ⟨⟩, fun _ hhead => ?_⟩
            cases r with
            | nil => cases hhead
            | cons u r => cases hhead; exact hr r rfl
  · rintro ⟨i, hlegal, rfl, htokens, hseen, hhead⟩
    cases hlegal with
    | token hbrace hbranch =>
      obtain ⟨rfl, rfl⟩ := List.cons.inj htokens
      have hhead : r.head? ≠ some Token.lbrace := hhead rfl
      unfold piece
      rw [if_neg hbranch, if_neg fun ho => hbrace (.inl ho), if_neg fun hc => hbrace (.inr hc)]
      split
      · exact absurd rfl hhead
      · rfl
    | @bare _ body hlabel hbrace hbranch hflat =>
      cases htokens
      unfold piece
      rw [if_neg hbranch, if_neg fun ho => hbrace (.inl ho), if_neg fun hc => hbrace (.inr hc)]
      exact labelled_eq_ok_iff.mpr ⟨hlabel, hseen t rfl, body, rfl, by simp, hflat⟩
    | @branch l body hlabel hflat =>
      cases htokens
      unfold piece
      rw [if_pos rfl]
      exact labelled_eq_ok_iff.mpr ⟨hlabel, hseen l rfl, body, rfl, by simp, hflat⟩

/-! ### All items -/

/-- The first piece is cut off, and its label is in use behind it. -/
theorem pieces_cons {t : Token} {r rest : List Token} {p : Piece}
    (h : piece reg seen t r = .ok (p, rest)) :
    pieces reg seen (t :: r) = (pieces reg (p.label?.toList ++ seen) rest).map (p :: ·) := by
  rw [pieces]
  split
  · next he =>
    rw [h] at he
    cases he
  · next he =>
    rw [h] at he
    cases he
    cases pieces reg (p.label?.toList ++ seen) rest <;> rfl

/-- No item starts with a brace. -/
theorem Item.Legal.head?_tokens_ne {i : Item} (h : i.Legal reg) (r : List Token) :
    (i.tokens ++ r).head? ≠ some Token.lbrace := by
  intro hhead
  cases h with
  | token hbrace _ => exact hbrace (.inl (Option.some.inj hhead))
  | bare _ hbrace _ _ => exact hbrace (.inl (Option.some.inj hhead))
  | branch _ _ => exact absurd (Option.some.inj hhead) (by decide)

/-- No item starts with a brace. -/
theorem head?_flatMap_tokens_ne {items : List Item} (h : ∀ i ∈ items, i.Legal reg) :
    (items.flatMap Item.tokens).head? ≠ some Token.lbrace := by
  cases items with
  | nil => simp
  | cons i items =>
    rw [List.flatMap_cons]
    exact (h i List.mem_cons_self).head?_tokens_ne _

theorem labelsOf_cons (i : Item) (items : List Item) :
    labelsOf (i :: items) = i.piece.label?.toList ++ labelsOf items := by
  cases i <;> rfl

/-- The labels of the items are new if that of the first is, and those of the others as well once it
is in use. -/
theorem nodup_labelsOf_cons (i : Item) (items : List Item) :
    ((labelsOf (i :: items)).Nodup ∧ ∀ l ∈ labelsOf (i :: items), l ∉ seen) ↔
      (∀ l ∈ i.piece.label?, l ∉ seen) ∧
        (labelsOf items).Nodup ∧ ∀ l ∈ labelsOf items, l ∉ i.piece.label?.toList ++ seen := by
  rw [labelsOf_cons]
  cases i.piece.label? with
  | none => simp
  | some k =>
    simp only [Option.toList_some, List.singleton_append, List.nodup_cons, List.mem_cons, not_or,
      Option.mem_some_iff, forall_eq_or_imp, forall_eq', forall_and]
    constructor
    · rintro ⟨⟨hk, hn⟩, hks, hs⟩
      exact ⟨hks, hn, fun l hl he => hk (he ▸ hl), hs⟩
    · rintro ⟨hks, hn, hk, hs⟩
      exact ⟨⟨fun hm => hk k hm rfl, hn⟩, hks, hs⟩

/-- The scan accepts what is written as legal items with new labels, and nothing else. -/
theorem pieces_eq_ok_iff {tokens : List Token} {ps : List Piece} :
    pieces reg seen tokens = .ok ps ↔
      ∃ items : List Item, (∀ i ∈ items, i.Legal reg) ∧
        ((labelsOf items).Nodup ∧ ∀ l ∈ labelsOf items, l ∉ seen) ∧
        tokens = items.flatMap Item.tokens ∧ ps = items.map Item.piece := by
  constructor
  · intro h
    fun_induction pieces reg seen tokens generalizing ps with
    | case1 =>
      cases h
      exact ⟨[], by simp, by simp [labelsOf], rfl, rfl⟩
    | case2 | case3 => cases h
    | case4 seen t r p rest hp more hmore ih =>
      cases h
      obtain ⟨i, hlegal, rfl, htokens, hseen, -⟩ := piece_eq_ok_iff.mp hp
      obtain ⟨items, hall, hlabels, rfl, rfl⟩ := ih hmore
      exact ⟨i :: items, List.forall_mem_cons.mpr ⟨hlegal, hall⟩,
        (nodup_labelsOf_cons i items).mpr ⟨hseen, hlabels⟩, htokens, rfl⟩
  · rintro ⟨items, hall, hlabels, rfl, rfl⟩
    induction items generalizing seen with
    | nil =>
      rw [List.flatMap_nil, pieces]
      rfl
    | cons i items ih =>
      obtain ⟨hlegal, hall⟩ := List.forall_mem_cons.mp hall
      obtain ⟨hseen, hlabels⟩ := (nodup_labelsOf_cons i items).mp hlabels
      obtain ⟨t, r, htokens⟩ : ∃ t r, (i :: items).flatMap Item.tokens = t :: r := by
        cases i <;> exact ⟨_, _, rfl⟩
      have hp : piece reg seen t r = .ok (i.piece, items.flatMap Item.tokens) :=
        piece_eq_ok_iff.mpr ⟨i, hlegal, rfl, htokens.symm, hseen,
          fun _ => head?_flatMap_tokens_ne hall⟩
      rw [htokens, pieces_cons hp, ih hall hlabels]
      rfl

/-- The pieces of items are laid out as the items are hoisted. -/
theorem layout_pieces (items : List Item) : layout (items.map Item.piece) = hoisted items := by
  have hmain : mainTokens (items.map Item.piece) = items.filterMap Item.main? := by
    rw [mainTokens, List.filterMap_map]
    congr 1
    funext i
    cases i <;> rfl
  have hbodies : bodies (items.map Item.piece) = items.filterMap Item.body? := by
    rw [bodies, List.filterMap_map]
    congr 1
    funext i
    cases i <;> rfl
  simp only [layout, hoisted, hmain, hbodies, List.isEmpty_iff]

/-- **Hoisting is exact.** The tokens that are accepted are those of the interleavings, and what
comes out is the main block in order, left as it is if there are no bodies, or else closed by `end`
and followed by each body in order, behind its label and closed by `end`. -/
theorem hoist_iff_interleaving (reg : Registry) (tokens out : List Token) :
    hoist reg tokens = .ok out ↔
      ∃ items : List Item, Interleaving reg items ∧ tokens = items.flatMap Item.tokens ∧
        out = hoisted items := by
  constructor
  · intro h
    cases hp : pieces reg [] tokens with
    | error e =>
      rw [hoist, hp] at h
      cases h
    | ok ps =>
      rw [hoist, hp] at h
      cases h
      obtain ⟨items, hlegal, ⟨hdistinct, -⟩, rfl, rfl⟩ := pieces_eq_ok_iff.mp hp
      exact ⟨items, ⟨hlegal, hdistinct⟩, rfl, layout_pieces items⟩
  · rintro ⟨items, ⟨hlegal, hdistinct⟩, rfl, rfl⟩
    have hp : pieces reg [] (items.flatMap Item.tokens) = .ok (items.map Item.piece) :=
      pieces_eq_ok_iff.mpr
        ⟨items, hlegal, ⟨hdistinct, fun _ _ => List.not_mem_nil⟩, rfl, rfl⟩
    rw [hoist, hp, ← layout_pieces]
    rfl

end Proviso.Body
