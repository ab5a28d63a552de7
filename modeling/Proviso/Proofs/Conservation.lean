import Mathlib.Algebra.BigOperators.Finprod
import Proviso.Proofs.Requests

/-!
# Conservation of value

Native currency only changes hands. Tokens change hands, and besides come into being by a mint that
the host grants and go by a burn that it grants, each by its amount. A refused call moves nothing.

The supply of a currency is the sum of its balances over all owners, of whom there are finitely
many, so every sum here is a proper one. An entry put in a ledger changes a sum by the new balance
less the old (`Ledger.total_insert`); what credit, debit and move do to sums follows, then what a
granted call does, then a step, then a run (`runCode_conserves`).
-/

namespace Proviso

/-- There are finitely many keys. -/
theorem Ranked.finite (κ : Type) [Ranked κ] : Finite κ :=
  Finite.of_injective (fun k : κ => (⟨rank k, Ranked.rank_lt k⟩ : Fin (Ranked.bound κ)))
    fun _ _ h => Ranked.rank_inj (Fin.val_eq_of_eq h)

namespace UInt256

variable {a b c : UInt256}

theorem toNat_of_ofNat? {n : Nat} (h : ofNat? n = some a) : a.toNat = n := by
  rw [ofNat?] at h
  split at h
  · cases h
    rfl
  · cases h

/-- A sum in range is the sum. -/
theorem toNat_of_add? (h : add? a b = some c) : c.toNat = a.toNat + b.toNat :=
  toNat_of_ofNat? h

/-- A sum out of range is at least `2 ^ 256`. -/
theorem size_le_of_add? (h : add? a b = none) : size ≤ a.toNat + b.toNat := by
  refine Nat.le_of_not_lt fun hlt => ?_
  rw [add?, ofNat?, dif_pos hlt] at h
  cases h

/-- A difference and what was taken away make what was there. -/
theorem toNat_of_sub? (h : sub? a b = some c) : c.toNat + b.toNat = a.toNat := by
  rw [sub?] at h
  split at h
  · next hle =>
    rw [toNat_of_ofNat? h, Nat.sub_add_cancel hle]
  · cases h

end UInt256

/-! ### Sums over a ledger -/

namespace Ledger

variable {ι κ : Type}

open Classical in
/-- What a balance at `k` adds to the sum over the keys `f i`. -/
noncomputable def share (f : ι → κ) (k : κ) (v : UInt256) : Nat :=
  if k ∈ Set.range f then v.toNat else 0

/-- Shares add up as the amounts do. -/
theorem share_add {a b c : UInt256} (h : c.toNat = a.toNat + b.toNat) (f : ι → κ) (k : κ) :
    share f k c = share f k a + share f k b := by
  by_cases hk : k ∈ Set.range f
  · simp only [share, if_pos hk, h]
  · simp only [share, if_neg hk]

/-- A balance counts alike at two keys of which the sum has both or neither. -/
theorem share_congr {f : ι → κ} {k k' : κ} (h : k ∈ Set.range f ↔ k' ∈ Set.range f) (v : UInt256) :
    share f k v = share f k' v := by
  by_cases hk : k ∈ Set.range f
  · rw [share, share, if_pos hk, if_pos (h.mp hk)]
  · rw [share, share, if_neg hk, if_neg fun hk' => hk (h.mpr hk')]

variable [Ranked ι] [Ranked κ]

@[simp] theorem balance_insert_self (l : Ledger κ) (k : κ) (v : UInt256) :
    balance (l.insert k v) k = v := by
  simp [balance]

/-- Other balances stay when one is set. -/
theorem balance_insert_of_ne (l : Ledger κ) {k k' : κ} (v : UInt256) (h : k ≠ k') :
    balance (l.insert k v) k' = balance l k' := by
  rw [balance, Table.get?_insert_of_ne l v h, balance]

/-- The sum of the balances at the keys `f i`. -/
noncomputable def total (l : Ledger κ) (f : ι → κ) : Nat :=
  ∑ᶠ i, (l.balance (f i)).toNat

variable {f : ι → κ} {l l' : Ledger κ} {k : κ} {v : UInt256}

/-- A total is one balance and the sum of all others. -/
theorem total_eq_add (l : Ledger κ) (f : ι → κ) (i : ι) :
    l.total f = (l.balance (f i)).toNat + ∑ᶠ (j) (_ : j ≠ i), (l.balance (f j)).toNat := by
  have := Ranked.finite ι
  exact (add_finsum_cond_ne i (Set.toFinite _)).symm

/-- A new entry changes a sum by its own balance less the one it replaces. -/
theorem total_insert (hf : Function.Injective f) (l : Ledger κ) (k : κ) (v : UInt256) :
    total (l.insert k v) f + share f k (l.balance k) = l.total f + share f k v := by
  by_cases hk : k ∈ Set.range f
  · obtain ⟨i, rfl⟩ := hk
    have hrest : ∀ j, (∑ᶠ (_ : j ≠ i), (balance (l.insert (f i) v) (f j)).toNat)
        = ∑ᶠ (_ : j ≠ i), (l.balance (f j)).toNat := fun j =>
      finsum_congr fun hj => by
        rw [balance_insert_of_ne l v fun h => hj (hf h).symm]
    rw [share, share, if_pos ⟨i, rfl⟩, if_pos ⟨i, rfl⟩, total_eq_add _ f i, total_eq_add l f i,
      finsum_congr hrest, balance_insert_self]
    omega
  · have hne : ∀ i, k ≠ f i := fun i h => hk ⟨i, h.symm⟩
    rw [share, share, if_neg hk, if_neg hk]
    exact congrArg (· + 0) (finsum_congr fun i => by rw [balance_insert_of_ne l v (hne i)])

/-- A credit adds its amount to the total, if its key is among those counted. -/
theorem total_of_credit? (hf : Function.Injective f) (h : l.credit? k v = some l') :
    l'.total f = l.total f + share f k v := by
  obtain ⟨c, hc, rfl⟩ := Option.map_eq_some_iff.mp h
  have ht := total_insert hf l k c
  have hs := share_add (UInt256.toNat_of_add? hc) f k
  omega

/-- A debit takes its amount from the total, if its key is among those counted. -/
theorem total_of_debit? (hf : Function.Injective f) (h : l.debit? k v = some l') :
    l'.total f + share f k v = l.total f := by
  obtain ⟨c, hc, rfl⟩ := Option.map_eq_some_iff.mp h
  have ht := total_insert hf l k c
  have hs := share_add (UInt256.toNat_of_sub? hc).symm f k
  omega

/-- A move between keys of which the sum has both or neither keeps it. -/
theorem total_of_move? [DecidableEq κ] {sender receiver : κ} (hf : Function.Injective f)
    (hsame : sender ∈ Set.range f ↔ receiver ∈ Set.range f)
    (h : l.move? sender receiver v = some l') : l'.total f = l.total f := by
  rw [move?] at h
  split at h
  · cases h
  · next debited hd =>
    split at h
    · -- to oneself nothing moves
      cases h
      rfl
    · next hne =>
      obtain ⟨credited, hc, rfl⟩ := Option.map_eq_some_iff.mp h
      have hout := total_insert hf l sender debited
      have hin := total_insert hf (l.insert sender debited) receiver credited
      rw [balance_insert_of_ne l debited hne] at hin
      have hsd := share_add (UInt256.toNat_of_sub? hd).symm f sender
      have hsc := share_add (UInt256.toNat_of_add? hc) f receiver
      have heq := share_congr hsame v
      omega

end Ledger

/-! ### Supplies -/

namespace Host

/-- The native currency held by all owners together. -/
noncomputable def nativeSupply (h : Host) : Nat :=
  ∑ᶠ owner, (h.nativeBalance owner).toNat

/-- What all owners together hold of a token. -/
noncomputable def tokenSupply (h : Host) (token : Address) : Nat :=
  ∑ᶠ owner, (h.balanceOf token owner).toNat

end Host

/-- How much of a token a call makes. -/
def HostCall.minted (token : Address) : HostCall → Nat
  | .mint t _ amount => if t = token then amount.toNat else 0
  | .sendNative .. | .tokenTransfer .. | .tokenTransferFrom .. | .burn .. => 0

/-- How much of a token a call destroys. -/
def HostCall.burned (token : Address) : HostCall → Nat
  | .burn t _ amount => if t = token then amount.toNat else 0
  | .sendNative .. | .tokenTransfer .. | .tokenTransferFrom .. | .mint .. => 0

namespace Host

variable {h h' : Host} {c : HostCall}

theorem mem_range_token {token t owner : Address} :
    (t, owner) ∈ Set.range (Prod.mk token : Address → Address × Address) ↔ t = token := by
  simp [eq_comm]

/-- An amount of one token counts for the supply of that token only. -/
theorem share_token (token t owner : Address) (v : UInt256) :
    Ledger.share (Prod.mk token : Address → Address × Address) (t, owner) v
      = if t = token then v.toNat else 0 := by
  simp only [Ledger.share, mem_range_token]

/-- No request that is granted changes the supply of native currency. -/
theorem nativeSupply_of_grant (hg : h.grant? c = some h') : h'.nativeSupply = h.nativeSupply := by
  cases c with
  | sendNative sender receiver amount =>
    obtain ⟨l, hl, rfl⟩ := Option.map_eq_some_iff.mp hg
    exact Ledger.total_of_move? Function.injective_id (by simp) hl
  | tokenTransferFrom token spender sender receiver amount =>
    obtain ⟨rest, -, hg⟩ := Option.bind_eq_some_iff.mp hg
    obtain ⟨l, -, rfl⟩ := Option.map_eq_some_iff.mp hg
    rfl
  | tokenTransfer | mint | burn =>
    obtain ⟨l, -, rfl⟩ := Option.map_eq_some_iff.mp hg
    rfl

/-- A request that is granted changes the supply of a token by what it mints and burns. -/
theorem tokenSupply_of_grant (hg : h.grant? c = some h') (token : Address) :
    h'.tokenSupply token + c.burned token = h.tokenSupply token + c.minted token := by
  have hinj : Function.Injective (Prod.mk token : Address → Address × Address) :=
    Prod.mk_right_injective token
  have hmove : ∀ {t sender receiver amount l},
      h.tokens.move? (t, sender) (t, receiver) amount = some l →
      Ledger.total l (Prod.mk token : Address → Address × Address) = h.tokenSupply token :=
    fun hl => Ledger.total_of_move? hinj (by rw [mem_range_token, mem_range_token]) hl
  cases c with
  | sendNative sender receiver amount =>
    obtain ⟨l, -, rfl⟩ := Option.map_eq_some_iff.mp hg
    rfl
  | tokenTransfer t sender receiver amount =>
    obtain ⟨l, hl, rfl⟩ := Option.map_eq_some_iff.mp hg
    exact hmove hl
  | tokenTransferFrom t spender sender receiver amount =>
    obtain ⟨rest, -, hg⟩ := Option.bind_eq_some_iff.mp hg
    obtain ⟨l, hl, rfl⟩ := Option.map_eq_some_iff.mp hg
    exact hmove hl
  | mint t receiver amount =>
    obtain ⟨l, hl, rfl⟩ := Option.map_eq_some_iff.mp hg
    have ht := Ledger.total_of_credit? hinj hl
    rwa [share_token] at ht
  | burn t holder amount =>
    obtain ⟨l, hl, rfl⟩ := Option.map_eq_some_iff.mp hg
    have ht := Ledger.total_of_debit? hinj hl
    rwa [share_token] at ht

end Host

/-! ### Runs -/

/-- The sum of `f` over the calls of a journal that the host granted. -/
def grantedSum (f : HostCall → Nat) : List Request → Nat
  | []      => 0
  | r :: rs => (if r.granted then f r.call else 0) + grantedSum f rs

/-- The supplies are those of `host`, up to what granted mints and burns account for. -/
structure Workspace.Balanced {σ : Type} (host : Host) (w : Workspace σ) : Prop where
  native : w.host.nativeSupply = host.nativeSupply
  tokens : ∀ token, w.host.tokenSupply token + grantedSum (HostCall.burned token) w.journal
    = host.tokenSupply token + grantedSum (HostCall.minted token) w.journal

variable {σ : Type} {w w' : Workspace σ} {host : Host}

/-- A workspace stays balanced over one request, or none: its journal notes what was granted. -/
theorem Workspace.Balanced.of_deals (h : w.Balanced host) (hd : w.Deals w') :
    w'.Balanced host := by
  rcases hd with ⟨hh, hj⟩ | ⟨⟨op, call, granted⟩, hs, hj⟩
  · exact ⟨hh ▸ h.native, fun token => by rw [hh, hj]; exact h.tokens token⟩
  · rcases w.host.submit_cases call with ⟨h', hg, hs'⟩ | ⟨-, hs'⟩
    · obtain ⟨rfl, rfl⟩ := Prod.mk.inj (hs'.symm.trans hs)
      refine ⟨(Host.nativeSupply_of_grant hg).trans h.native, fun token => ?_⟩
      have hc := Host.tokenSupply_of_grant hg token
      have ht := h.tokens token
      simp only [hj, grantedSum, if_true]
      omega
    · obtain ⟨rfl, hh⟩ := Prod.mk.inj (hs'.symm.trans hs)
      refine ⟨hh ▸ h.native, fun token => ?_⟩
      simpa [hj, grantedSum, ← hh] using h.tokens token

variable [Store σ]

/-- **Conservation of value.** Over a whole run, however it ends, the native supply stays the same,
and the supply of every token changes by what granted mints made less what granted burns destroyed.
On the way each step makes no call or one, which the journal notes with the host's answer, and a
refused one leaves the ledgers as they were. -/
theorem runCode_conserves (code : List UInt8) (account : Address) (limits : Limits) (store : σ)
    (host : Host) :
    let final := (runCode code account limits store host).2.work
    final.host.nativeSupply = host.nativeSupply ∧
    (∀ token, final.host.tokenSupply token + grantedSum (HostCall.burned token) final.journal
      = host.tokenSupply token + grantedSum (HostCall.minted token) final.journal) ∧
    ∀ m, ((Machine.fresh account limits store host).load code.toArray).Steps m →
      let w := m.work
      let w' := m.step.2.work
      (w'.host = w.host ∧ w'.journal = w.journal) ∨
      ∃ r : Request, w'.journal = r :: w.journal ∧
        w.host.submit r.call = (r.granted, w'.host) ∧
        (r.granted = false → w'.host.native = w.host.native ∧ w'.host.tokens = w.host.tokens ∧
          w'.host.allowances = w.host.allowances) := by
  have hrun : (runCode code account limits store host).2.work.Balanced host :=
    Machine.run_keeps (P := fun m => m.work.Balanced host)
      (fun m h => h.of_deals m.step_deals) ⟨rfl, fun _ => rfl⟩
  refine ⟨hrun.native, hrun.tokens, fun m _ => ?_⟩
  rcases m.step_deals with h | ⟨r, hs, hj⟩
  · exact .inl h
  · refine .inr ⟨r, hj, hs, fun hr => ?_⟩
    have hh := m.work.host.submit_of_not_granted (hs.trans (by rw [hr]))
    exact ⟨congrArg Host.native hh, congrArg Host.tokens hh, congrArg Host.allowances hh⟩

end Proviso
