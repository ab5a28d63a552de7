import Proviso.UInt256

/-!
# Finite maps in key order

A table is a list of entries with strictly rising keys, so that two tables with the same look-ups
are equal. Keys are ranked by a number; byte strings rank by the number they write, pairs by their
first component and then by their second.
-/

namespace Proviso

/-- Keys that an injective rank below a bound puts in order. -/
class Ranked (κ : Type) where
  rank : κ → Nat
  bound : Nat
  rank_lt : ∀ k, rank k < bound
  rank_inj : ∀ {a b}, rank a = rank b → a = b

export Ranked (rank)

/-- A quotient and a remainder below the same divisor determine the number. -/
theorem eq_of_mul_add_eq {d a b r s : Nat} (hr : r < d) (hs : s < d)
    (h : a * d + r = b * d + s) : a = b ∧ r = s := by
  have hd : 0 < d := Nat.lt_of_le_of_lt (Nat.zero_le r) hr
  have hq : a = b := by
    have h₁ : (a * d + r) / d = a := by
      rw [Nat.mul_comm, Nat.mul_add_div hd, Nat.div_eq_of_lt hr, Nat.add_zero]
    have h₂ : (b * d + s) / d = b := by
      rw [Nat.mul_comm, Nat.mul_add_div hd, Nat.div_eq_of_lt hs, Nat.add_zero]
    rw [← h₁, h, h₂]
  subst hq
  exact ⟨rfl, by omega⟩

/-- Bytes of one length are determined by the number that they spell. -/
theorem natOfBytes_inj {as bs : List UInt8} (hl : as.length = bs.length)
    (h : natOfBytes as = natOfBytes bs) : as = bs := by
  induction as generalizing bs with
  | nil =>
    cases bs with
    | nil => rfl
    | cons _ _ => simp at hl
  | cons a as ih =>
    cases bs with
    | nil => simp at hl
    | cons b bs =>
      have hl' : as.length = bs.length := by simpa using hl
      rw [natOfBytes_cons, natOfBytes_cons, hl'] at h
      have hb := natOfBytes_lt bs
      have ha := natOfBytes_lt as
      rw [hl'] at ha
      obtain ⟨h₁, h₂⟩ := eq_of_mul_add_eq ha hb h
      rw [UInt8.toNat_inj.mp h₁, ih hl' h₂]

instance {n : Nat} : Ranked (Octets n) where
  rank a := a.toNat
  bound := Octets.count n
  rank_lt a := a.toNat_lt
  rank_inj {a b} h :=
    Octets.ext (natOfBytes_inj (a.length_bytes.trans b.length_bytes.symm) h)

instance {α β : Type} [Ranked α] [Ranked β] : Ranked (α × β) where
  rank p := rank p.1 * Ranked.bound β + rank p.2
  bound := Ranked.bound α * Ranked.bound β
  rank_lt p := by
    have h₁ := Ranked.rank_lt p.1
    have h₂ := Ranked.rank_lt p.2
    calc rank p.1 * Ranked.bound β + rank p.2
        < (rank p.1 + 1) * Ranked.bound β := by rw [Nat.add_mul]; omega
      _ ≤ Ranked.bound α * Ranked.bound β := Nat.mul_le_mul_right _ h₁
  rank_inj {a b} h := by
    obtain ⟨h₁, h₂⟩ := eq_of_mul_add_eq (Ranked.rank_lt a.2) (Ranked.rank_lt b.2) h
    exact Prod.ext (Ranked.rank_inj h₁) (Ranked.rank_inj h₂)

/-! ### Tables -/

/-- Entries with strictly rising keys. -/
structure Table (κ ν : Type) [Ranked κ] where
  entries : List (κ × ν)
  rising : entries.Pairwise fun a b => rank a.1 < rank b.1

namespace Table

variable {κ ν : Type} [Ranked κ]

/-- A table without entries. -/
def empty : Table κ ν := ⟨[], .nil⟩

instance : Inhabited (Table κ ν) := ⟨empty⟩

/-- The value of the first entry with this key. -/
def find? (k : κ) : List (κ × ν) → Option ν
  | []     => none
  | e :: r => if rank e.1 = rank k then some e.2 else find? k r

/-- The value of a key. -/
def get? (t : Table κ ν) (k : κ) : Option ν :=
  find? k t.entries

/-- The number of keys. -/
def size (t : Table κ ν) : Nat :=
  t.entries.length

/-- Puts an entry before the first one with a larger key; an entry of the same key gives way. -/
def place (k : κ) (v : ν) : List (κ × ν) → List (κ × ν)
  | []     => [(k, v)]
  | e :: r =>
    if rank k < rank e.1 then (k, v) :: e :: r
    else if rank e.1 = rank k then (k, v) :: r
    else e :: place k v r

/-- An entry of the new list is the one placed, or one of the old list. -/
theorem mem_place {k : κ} {v : ν} {l : List (κ × ν)} {x : κ × ν} (h : x ∈ place k v l) :
    x = (k, v) ∨ x ∈ l := by
  induction l with
  | nil => simpa [place] using h
  | cons e r ih =>
    rw [place] at h
    split at h
    · simpa using h
    · split at h
      · rcases List.mem_cons.mp h with h | h
        · exact .inl h
        · exact .inr (List.mem_cons_of_mem _ h)
      · rcases List.mem_cons.mp h with h | h
        · exact .inr (h ▸ List.mem_cons_self)
        · exact (ih h).imp_right (List.mem_cons_of_mem _)

/-- The list stays in the order of the keys. -/
theorem rising_place (k : κ) (v : ν) {l : List (κ × ν)}
    (h : l.Pairwise fun a b => rank a.1 < rank b.1) :
    (place k v l).Pairwise fun a b => rank a.1 < rank b.1 := by
  induction l with
  | nil => simp [place]
  | cons e r ih =>
    obtain ⟨he, hr⟩ := List.pairwise_cons.mp h
    rw [place]
    split
    · next hlt =>
      refine List.pairwise_cons.mpr ⟨fun x hx => ?_, h⟩
      rcases List.mem_cons.mp hx with rfl | hx
      · exact hlt
      · exact Nat.lt_trans hlt (he x hx)
    · split
      · next heq =>
        exact List.pairwise_cons.mpr ⟨fun x hx => heq ▸ he x hx, hr⟩
      · refine List.pairwise_cons.mpr ⟨fun x hx => ?_, ih hr⟩
        rcases mem_place hx with rfl | hx
        · show rank e.1 < rank k
          omega
        · exact he x hx

/-- Gives a value to a key; an earlier one is replaced. -/
def insert (t : Table κ ν) (k : κ) (v : ν) : Table κ ν :=
  ⟨place k v t.entries, rising_place k v t.rising⟩

/-- The entries inserted one after another, so that a later one wins. -/
def ofList (l : List (κ × ν)) : Table κ ν :=
  l.foldl (fun t e => t.insert e.1 e.2) empty

/-- The value placed is found. -/
theorem find?_place_self (k : κ) (v : ν) (l : List (κ × ν)) :
    find? k (place k v l) = some v := by
  induction l with
  | nil => simp [place, find?]
  | cons e r ih =>
    rw [place]
    split
    · simp [find?]
    · split
      · simp [find?]
      · next hne => simp [find?, hne, ih]

/-- Values of other keys are found as before. -/
theorem find?_place_of_ne {k k' : κ} (v : ν) (l : List (κ × ν)) (h : rank k ≠ rank k') :
    find? k' (place k v l) = find? k' l := by
  induction l with
  | nil => simp [place, find?, h]
  | cons e r ih =>
    rw [place]
    split
    · simp [find?, h]
    · split
      · next heq => simp [find?, h, heq]
      · simp [find?, ih]

/-- The value inserted is found under its key. -/
@[simp] theorem get?_insert_self (t : Table κ ν) (k : κ) (v : ν) :
    (t.insert k v).get? k = some v :=
  find?_place_self k v t.entries

/-- Values of other keys stay. -/
theorem get?_insert_of_ne (t : Table κ ν) {k k' : κ} (v : ν) (h : k ≠ k') :
    (t.insert k v).get? k' = t.get? k' :=
  find?_place_of_ne v t.entries fun hr => h (Ranked.rank_inj hr)

@[simp] theorem get?_empty (k : κ) : (empty : Table κ ν).get? k = none := rfl

end Table

end Proviso
