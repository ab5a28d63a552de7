import Proviso.Store

/-!
# Laws of stores

A table is determined by its look-ups. A lawful store keeps what is put into a slot and leaves the
other slots alone; storage is one, and so is an overlay over any store. Two stores of different
kinds agree if every slot reads alike in both, and writing the same word to both keeps them in
agreement. Committing an overlay gives a store that agrees with the overlay.
-/

namespace Proviso

/-! ### Tables with the same look-ups -/

namespace Table

variable {κ ν : Type} [Ranked κ] {l l' : List (κ × ν)}

/-- A key before all others is not found. -/
theorem find?_eq_none {k : κ} (h : ∀ e ∈ l, rank k < rank e.1) : find? k l = none := by
  induction l with
  | nil => rfl
  | cons e r ih =>
    have hne : rank e.1 ≠ rank k := Nat.ne_of_gt (h e List.mem_cons_self)
    rw [find?, if_neg hne]
    exact ih fun x hx => h x (List.mem_cons_of_mem _ hx)

theorem find?_head (e : κ × ν) (r : List (κ × ν)) : find? e.1 (e :: r) = some e.2 :=
  if_pos rfl

/-- Nothing is found below the first key. -/
theorem rank_head_le {e : κ × ν} {r : List (κ × ν)} {k : κ} {v : ν}
    (hr : (e :: r).Pairwise fun a b => rank a.1 < rank b.1) (h : find? k (e :: r) = some v) :
    rank e.1 ≤ rank k := by
  refine Nat.le_of_not_lt fun hlt => ?_
  have hn : find? k (e :: r) = none := by
    refine find?_eq_none fun x hx => ?_
    rcases List.mem_cons.mp hx with rfl | hx
    · exact hlt
    · exact Nat.lt_trans hlt ((List.pairwise_cons.mp hr).1 x hx)
  rw [hn] at h
  cases h

/-- Ordered lists with the same words under all keys are equal. -/
theorem eq_of_find? (hl : l.Pairwise fun a b => rank a.1 < rank b.1)
    (hl' : l'.Pairwise fun a b => rank a.1 < rank b.1) (h : ∀ k, find? k l = find? k l') :
    l = l' := by
  induction l generalizing l' with
  | nil =>
    cases l' with
    | nil => rfl
    | cons e' r' =>
      have he := h e'.1
      rw [find?_head] at he
      cases he
  | cons e r ih =>
    cases l' with
    | nil =>
      have he := h e.1
      rw [find?_head] at he
      cases he
    | cons e' r' =>
      obtain ⟨hb, hr⟩ := List.pairwise_cons.mp hl
      obtain ⟨hb', hr'⟩ := List.pairwise_cons.mp hl'
      -- each list finds the first key of the other, so neither starts below the other
      have hrank : rank e.1 = rank e'.1 :=
        Nat.le_antisymm (rank_head_le hl ((h e'.1).trans (find?_head e' r')))
          (rank_head_le hl' ((h e.1).symm.trans (find?_head e r)))
      have hkey : e.1 = e'.1 := Ranked.rank_inj hrank
      have hval : e.2 = e'.2 := by
        have he := h e.1
        rw [find?_head, hkey, find?_head] at he
        exact Option.some.inj he
      have htail : r = r' := by
        refine ih hr hr' fun k => ?_
        by_cases hk : rank e.1 = rank k
        · rw [find?_eq_none fun x hx => hk ▸ hb x hx,
            find?_eq_none fun x hx => (hrank.symm.trans hk) ▸ hb' x hx]
        · have hf := h k
          rwa [find?, find?, if_neg hk, if_neg (hrank ▸ hk)] at hf
      rw [htail, Prod.ext hkey hval]

/-- Tables with the same look-ups are equal. -/
theorem ext_get? {t t' : Table κ ν} (h : ∀ k, t.get? k = t'.get? k) : t = t' := by
  obtain ⟨l, hl⟩ := t
  obtain ⟨l', hl'⟩ := t'
  obtain rfl : l = l' := eq_of_find? hl hl' h
  rfl

end Table

/-! ### Lawful stores -/

/-- A store that keeps what is put into a slot, and leaves the other slots alone. -/
class LawfulStore (σ : Type) [Store σ] : Prop where
  get?_put (s : σ) (a : Address) (k : Slot) (w : Word) (b : Address) (j : Slot) :
    Store.get? (Store.put s a k w) b j
      = if (a, k) = (b, j) then some w else Store.get? s b j

instance : LawfulStore Storage where
  get?_put s a k w b j := by
    split
    · next h =>
      cases h
      exact Table.get?_insert_self s (a, k) w
    · next h => exact Table.get?_insert_of_ne s w h

instance {σ : Type} [Store σ] : LawfulStore (Overlay σ) where
  get?_put o a k w b j := by
    show ((o.writes.insert (a, k) w).get? (b, j)).or (Store.get? o.base b j) = _
    split
    · next h =>
      cases h
      rw [Table.get?_insert_self, Option.some_or]
    · next h => rw [Table.get?_insert_of_ne _ _ h]; rfl

namespace Store

variable {σ τ : Type} [Store σ] [Store τ] {s : σ} {t : τ}

/-- A word is read back where it was written, and other words stay. -/
theorem load_put [LawfulStore σ] (s : σ) (a : Address) (k : Slot) (w : Word) (b : Address)
    (j : Slot) : load (put s a k w) b j = if (a, k) = (b, j) then w else load s b j := by
  rw [load, load, LawfulStore.get?_put]
  by_cases h : (a, k) = (b, j)
  · rw [if_pos h, if_pos h]
    rfl
  · rw [if_neg h, if_neg h]

/-- Every slot reads alike in both stores, also one that was never written. -/
def Agree (s : σ) (t : τ) : Prop :=
  ∀ a k, get? s a k = get? t a k

theorem Agree.load (h : Agree s t) (a : Address) (k : Slot) : load s a k = load t a k :=
  congrArg (·.getD .zero) (h a k)

/-- Stores that agree do so after the same write. -/
theorem Agree.put [LawfulStore σ] [LawfulStore τ] (h : Agree s t) (a : Address) (k : Slot)
    (w : Word) : Agree (put s a k w) (put t a k w) := by
  intro b j
  rw [LawfulStore.get?_put, LawfulStore.get?_put, h b j]

end Store

/-! ### Overlays -/

namespace Overlay

variable {σ : Type} [Store σ]

theorem agree_ofBase (s : σ) : Store.Agree (ofBase s) s :=
  fun _ _ => rfl

/-- Writes under rising keys are what is read afterwards; elsewhere the store is as before. -/
theorem get?_foldl_put [LawfulStore σ] {es : List ((Address × Slot) × Word)}
    (hr : es.Pairwise fun e e' => rank e.1 < rank e'.1) (s : σ) (a : Address) (k : Slot) :
    Store.get? (es.foldl (fun s e => Store.put s e.1.1 e.1.2 e.2) s) a k
      = (Table.find? (a, k) es).or (Store.get? s a k) := by
  induction es generalizing s with
  | nil => rfl
  | cons e es ih =>
    obtain ⟨hb, hr⟩ := List.pairwise_cons.mp hr
    rw [List.foldl_cons, ih hr, LawfulStore.get?_put]
    by_cases hk : e.1 = (a, k)
    · -- no later write is to this slot
      have hn : Table.find? (a, k) es = none := Table.find?_eq_none fun x hx => hk ▸ hb x hx
      rw [hn, if_pos hk, ← hk, Table.find?_head]
      rfl
    · have hrank : rank e.1 ≠ rank (a, k) := fun h => hk (Ranked.rank_inj h)
      rw [if_neg hk, Table.find?, if_neg hrank]

/-- Committing an overlay gives a store that reads as the overlay does. -/
theorem agree_commit [LawfulStore σ] (o : Overlay σ) : Store.Agree o.commit o :=
  fun a k => get?_foldl_put o.writes.rising o.base a k

end Overlay

/-- Storages that agree are equal. -/
theorem Store.Agree.eq {s t : Storage} (h : Store.Agree s t) : s = t :=
  Table.ext_get? fun k => h k.1 k.2

end Proviso
