import Proviso.Slot
import Proviso.Table

/-!
# Storage

Each account has slots, and each slot holds a word; one that was never written reads as zero. An
overlay keeps writes apart from the store under it, so that they can be committed or dropped.
-/

namespace Proviso

/-- Something that keeps words under an account and a slot. -/
class Store (σ : Type) where
  get? : σ → Address → Slot → Option Word
  put : σ → Address → Slot → Word → σ

namespace Store

/-- The word in a slot, zero if it was never written. -/
def load {σ : Type} [Store σ] (s : σ) (a : Address) (k : Slot) : Word :=
  (get? s a k).getD .zero

end Store

/-- The words of all accounts, in the order of account and slot. -/
abbrev Storage := Table (Address × Slot) Word

instance : Store Storage where
  get? s a k := s.get? (a, k)
  put s a k w := s.insert (a, k) w

/-- Writes over a store that stays as it is. -/
structure Overlay (σ : Type) where
  base : σ
  writes : Storage

namespace Overlay

variable {σ : Type} [Store σ]

/-- An overlay without writes. -/
def ofBase (s : σ) : Overlay σ := ⟨s, .empty⟩

instance : Store (Overlay σ) where
  get? o a k := (o.writes.get? (a, k)).or (Store.get? o.base a k)
  put o a k w := ⟨o.base, o.writes.insert (a, k) w⟩

/-- The store under the overlay after all its writes, in key order. -/
def commit (o : Overlay σ) : σ :=
  o.writes.entries.foldl (fun s e => Store.put s e.1.1 e.1.2 e.2) o.base

end Overlay

end Proviso
