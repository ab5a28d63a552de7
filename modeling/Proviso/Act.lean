/-!
# Computations that fail and keep their state

An act changes a state and either gives a value or fails. What it did to the state before it
failed stands.
-/

namespace Proviso

/-- A computation on a state `σ` that gives an `α` or fails with an `ε`, and leaves a state in
both cases. -/
def Act (ε σ α : Type) := σ → Except ε α × σ

namespace Act

variable {ε σ τ α β : Type}

instance : Monad (Act ε σ) where
  pure a := fun s => (.ok a, s)
  bind x f := fun s =>
    match x s with
    | (.ok a, s')    => f a s'
    | (.error e, s') => (.error e, s')

/-- The current state. -/
def state : Act ε σ σ := fun s => (.ok s, s)

/-- Something about the current state. -/
def look (f : σ → α) : Act ε σ α := fun s => (.ok (f s), s)

/-- Replaces the state. -/
def put (s : σ) : Act ε σ Unit := fun _ => (.ok (), s)

/-- Changes the state and never fails. -/
def update (f : σ → σ) : Act ε σ Unit := fun s => (.ok (), f s)

/-- Fails and leaves the state as it is. -/
def fail (e : ε) : Act ε σ α := fun s => (.error e, s)

/-- A result that was reached without the state. -/
def lift : Except ε α → Act ε σ α
  | .ok a    => pure a
  | .error e => fail e

/-- The value, or else the failure. -/
def orFail (e : ε) : Option α → Act ε σ α
  | some a => pure a
  | none   => fail e

/-- The same act, with another account of its failure. -/
def mapError {ε' : Type} (f : ε → ε') (x : Act ε σ α) : Act ε' σ α := fun s =>
  match x s with
  | (.ok a, s')    => (.ok a, s')
  | (.error e, s') => (.error (f e), s')

/-- An act on a part of the state. -/
def within (get : τ → σ) (set : σ → τ → τ) (x : Act ε σ α) : Act ε τ α := fun t =>
  let (r, s) := x (get t)
  (r, set s t)

theorem bind_apply (x : Act ε σ α) (f : α → Act ε σ β) (s : σ) :
    (x >>= f) s =
      match x s with
      | (.ok a, s')    => f a s'
      | (.error e, s') => (.error e, s') := rfl

/-- An act that succeeds hands on its result and its state. -/
theorem bind_of_ok {x : Act ε σ α} {s s' : σ} {a : α} (h : x s = (.ok a, s'))
    (f : α → Act ε σ β) : (x >>= f) s = f a s' := by
  rw [bind_apply, h]

/-- An act that fails leaves out what follows. -/
theorem bind_of_error {x : Act ε σ α} {s s' : σ} {e : ε} (h : x s = (.error e, s'))
    (f : α → Act ε σ β) : (x >>= f) s = (.error e, s') := by
  rw [bind_apply, h]

/-- A function is applied to the result of an act. -/
theorem map_of_ok {x : Act ε σ α} {s s' : σ} {a : α} (h : x s = (.ok a, s')) (f : α → β) :
    (f <$> x) s = (.ok (f a), s') :=
  bind_of_ok h _

/-- A function is not applied if there is no result. -/
theorem map_of_error {x : Act ε σ α} {s s' : σ} {e : ε} (h : x s = (.error e, s'))
    (f : α → β) : (f <$> x) s = (.error e, s') :=
  bind_of_error h _

instance : LawfulMonad (Act ε σ) :=
  .mk' _
    (fun x => by
      funext s
      show (match x s with
        | (.ok a, s')    => (.ok a, s')
        | (.error e, s') => (.error e, s')) = x s
      rcases x s with ⟨_ | _, _⟩ <;> rfl)
    (fun _ _ => rfl)
    (fun x f g => by
      funext s
      simp only [bind_apply]
      rcases x s with ⟨_ | _, _⟩ <;> rfl)

end Act

end Proviso
