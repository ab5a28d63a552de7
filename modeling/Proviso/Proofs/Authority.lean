import Proviso.Proofs.Conservation
import Proviso.Proofs.Invariants

/-!
# Authority over funds

A program acts in the name of its own account. Others cannot lose native currency by it, nor
allowances that they gave to others; and of a token they lose, burns apart, no more than the
program has used of what they allowed it to spend.

An instruction signs its call with the account that runs it (`HostCall.IsBy`), wherever the parties
of the call come from. What a granted call of that kind can take is said ledger by ledger
(`Host.Spares`), and carried over a run by the journal (`Workspace.Spares`).

Main statement: `runCode_spares_others`.
-/

namespace Proviso

/-! ### Ledgers -/

namespace Ledger

variable {κ : Type} [Ranked κ] [DecidableEq κ] {l l' : Ledger κ} {k : κ} {v : UInt256}

omit [DecidableEq κ] in
/-- A credit lowers no balance. -/
theorem balance_le_of_credit? (h : l.credit? k v = some l') (j : κ) :
    (l.balance j).toNat ≤ (l'.balance j).toNat := by
  obtain ⟨c, hc, rfl⟩ := Option.map_eq_some_iff.mp h
  have hv := UInt256.toNat_of_add? hc
  by_cases hj : k = j
  · subst hj
    rw [balance_insert_self]
    omega
  · rw [balance_insert_of_ne l c hj]

/-- A debit takes its amount from one balance and leaves the others. -/
theorem balance_of_debit? (h : l.debit? k v = some l') (j : κ) :
    (l'.balance j).toNat + (if j = k then v.toNat else 0) = (l.balance j).toNat := by
  obtain ⟨c, hc, rfl⟩ := Option.map_eq_some_iff.mp h
  have hv := UInt256.toNat_of_sub? hc
  by_cases hj : j = k
  · subst hj
    rw [balance_insert_self, if_pos rfl, hv]
  · rw [balance_insert_of_ne l c fun hk => hj hk.symm, if_neg hj, Nat.add_zero]

/-- A move takes at most its amount, and only from the sender. -/
theorem balance_le_of_move? {sender receiver : κ} (h : l.move? sender receiver v = some l')
    (j : κ) :
    (l.balance j).toNat ≤ (l'.balance j).toNat + (if j = sender then v.toNat else 0) := by
  rw [move?] at h
  split at h
  · cases h
  · next debited hd =>
    split at h
    · cases h
      exact Nat.le_add_right _ _
    · next hne =>
      obtain ⟨credited, hc, rfl⟩ := Option.map_eq_some_iff.mp h
      have hdv := UInt256.toNat_of_sub? hd
      have hcv := UInt256.toNat_of_add? hc
      by_cases hr : receiver = j
      · subst hr
        rw [balance_insert_self]
        omega
      · rw [balance_insert_of_ne _ credited hr]
        by_cases hs : j = sender
        · subst hs
          rw [balance_insert_self, if_pos rfl, hdv]
        · rw [balance_insert_of_ne l debited fun hs' => hs hs'.symm]
          exact Nat.le_add_right _ _

end Ledger

/-! ### Calls -/

/-- The call takes funds in the name of `account`, if in anyone's. -/
def HostCall.IsBy (account : Address) : HostCall → Prop
  | .sendNative sender _ _             => sender = account
  | .tokenTransfer _ sender _ _        => sender = account
  | .tokenTransferFrom _ spender _ _ _ => spender = account
  | .mint ..                           => True
  | .burn ..                           => True

/-- The call burns some of a token that the holder has. -/
def HostCall.Burns (token holder : Address) (c : HostCall) : Prop :=
  ∃ amount, c = .burn token holder amount

/-- Instructions call in the name of the account that runs them. -/
theorem Instr.isBy_of_demand {L : Type} {i : Instr L}
    {call : Address → (Slot → Word) → HostCall} (h : i.demand? = some call) (account : Address)
    (words : Slot → Word) : (call account words).IsBy account := by
  obtain ⟨op, as⟩ := i
  cases op with
  | sendNative | transfer | transferVar | transferFrom => cases h; rfl
  | mint | burn => cases h; trivial
  | literal s => cases s <;> cases h
  | _ => cases h

/-- What is left to the others from `h` to `h'`: their native currency, the allowances that are not
for `account`, and, where nothing is burned, of each token all but what `account` has used of its
allowance. -/
structure Host.Spares (account : Address) (burned : Address → Address → Prop) (h h' : Host) :
    Prop where
  native {other : Address} (hne : other ≠ account) :
    (h.nativeBalance other).toNat ≤ (h'.nativeBalance other).toNat
  foreign {spender : Address} (hne : spender ≠ account) (token owner : Address) :
    h'.allowance token owner spender = h.allowance token owner spender
  allowed (token owner : Address) :
    (h'.allowance token owner account).toNat ≤ (h.allowance token owner account).toNat
  tokens {token other : Address} (hne : other ≠ account) (hb : ¬ burned token other) :
    (h.balanceOf token other).toNat + (h'.allowance token other account).toNat
      ≤ (h'.balanceOf token other).toNat + (h.allowance token other account).toNat

namespace Host

variable {account : Address} {burned burned' : Address → Address → Prop} {h h₁ h' : Host}
  {c : HostCall}

theorem Spares.refl (account : Address) (burned : Address → Address → Prop) (h : Host) :
    h.Spares account burned h where
  native _ := Nat.le_refl _
  foreign _ _ _ := rfl
  allowed _ _ := Nat.le_refl _
  tokens _ _ := Nat.le_refl _

/-- What two stretches spare, they spare together. -/
theorem Spares.trans (h₀ : h.Spares account burned h₁) (ht : h₁.Spares account burned h') :
    h.Spares account burned h' where
  native hne := Nat.le_trans (h₀.native hne) (ht.native hne)
  foreign hne token owner := (ht.foreign hne token owner).trans (h₀.foreign hne token owner)
  allowed token owner := Nat.le_trans (ht.allowed token owner) (h₀.allowed token owner)
  tokens hne hb := by
    have h₁ := h₀.tokens hne hb
    have h₂ := ht.tokens hne hb
    omega

theorem Spares.mono (hs : h.Spares account burned h')
    (hb : ∀ token other, burned token other → burned' token other) :
    h.Spares account burned' h' where
  native := hs.native
  foreign := hs.foreign
  allowed := hs.allowed
  tokens hne hn := hs.tokens hne fun hb' => hn (hb _ _ hb')

/-- **One call.** A granted call in the name of an account spares the others, its burns apart. -/
theorem spares_of_grant (hby : c.IsBy account) (hg : h.grant? c = some h') :
    h.Spares account (fun token holder => c.Burns token holder) h' := by
  have hrefl := Spares.refl account (fun token holder => c.Burns token holder) h
  cases c with
  | sendNative sender receiver amount =>
    obtain rfl : sender = account := hby
    obtain ⟨l, hl, rfl⟩ := Option.map_eq_some_iff.mp hg
    refine { hrefl with native := fun {other} hne => ?_ }
    have hle := Ledger.balance_le_of_move? hl other
    rwa [if_neg hne, Nat.add_zero] at hle
  | tokenTransfer token sender receiver amount =>
    obtain rfl : sender = account := hby
    obtain ⟨l, hl, rfl⟩ := Option.map_eq_some_iff.mp hg
    refine { hrefl with tokens := fun {t other} hne _ => ?_ }
    have hle := Ledger.balance_le_of_move? hl (t, other)
    rw [if_neg fun he => hne (congrArg Prod.snd he), Nat.add_zero] at hle
    exact Nat.add_le_add_right hle _
  | tokenTransferFrom token spender sender receiver amount =>
    obtain rfl : spender = account := hby
    obtain ⟨rest, hr, hg⟩ := Option.bind_eq_some_iff.mp hg
    obtain ⟨l, hl, rfl⟩ := Option.map_eq_some_iff.mp hg
    have hrest := Ledger.balance_of_debit? hr
    refine ⟨hrefl.native, fun {s} hne t owner => ?_, fun t owner => ?_, fun {t other} _ _ => ?_⟩
    · have heq := hrest (t, owner, s)
      rw [if_neg fun he => hne (congrArg (·.2.2) he), Nat.add_zero] at heq
      exact UInt256.ext heq
    · have heq := hrest (t, owner, spender)
      exact Nat.le_of_add_right_le (Nat.le_of_eq heq)
    · -- what the sender loses here, the spender has used of its allowance
      have hle := Ledger.balance_le_of_move? hl (t, other)
      have heq := hrest (t, other, spender)
      have hkey : (t, other, spender) = (token, sender, spender)
          ↔ (t, other) = (token, sender) := by simp
      simp only [hkey] at heq
      show (h.tokens.balance (t, other)).toNat + (rest.balance (t, other, spender)).toNat
        ≤ (l.balance (t, other)).toNat + (h.allowances.balance (t, other, spender)).toNat
      omega
  | mint token receiver amount =>
    obtain ⟨l, hl, rfl⟩ := Option.map_eq_some_iff.mp hg
    refine { hrefl with tokens := fun {t other} _ _ => ?_ }
    exact Nat.add_le_add_right (Ledger.balance_le_of_credit? hl (t, other)) _
  | burn token holder amount =>
    obtain ⟨l, hl, rfl⟩ := Option.map_eq_some_iff.mp hg
    refine { hrefl with tokens := fun {t other} _ hb => ?_ }
    have hkey : (t, other) ≠ (token, holder) := by
      rintro ⟨⟩
      exact hb ⟨amount, rfl⟩
    have heq := Ledger.balance_of_debit? hl (t, other)
    rw [if_neg hkey, Nat.add_zero] at heq
    exact Nat.le_of_eq (congrArg (· + _) heq.symm)

end Host

/-! ### Runs -/

/-- The journal has a burn of a token from a holder that the host granted. -/
def Burned (journal : List Request) (token holder : Address) : Prop :=
  ∃ r ∈ journal, r.granted = true ∧ r.call.Burns token holder

/-- The account at work is `account`, and since `host` the others have been spared. -/
def Workspace.Spares {σ : Type} (account : Address) (host : Host) (w : Workspace σ) : Prop :=
  w.account = account ∧ host.Spares account (Burned w.journal) w.host

/-- Nothing that a program can do breaks it. -/
theorem Workspace.stable_spares {σ : Type} [Store σ] (account : Address) (host : Host) :
    Workspace.Stable fun w : Workspace σ => w.Spares account host where
  stack _ h := h
  store _ _ h := h
  call {w i call} hi h := by
    obtain ⟨rfl, hs⟩ := h
    have hkept : host.Spares w.account
        (Burned (w.afterCall i.opcode (call w.account w.locals)).journal) w.host :=
      hs.mono fun token other ⟨r, hr, hb⟩ => ⟨r, List.mem_cons_of_mem _ hr, hb⟩
    refine ⟨rfl, ?_⟩
    rcases w.host.submit_cases (call w.account w.locals) with ⟨h', hg, he⟩ | ⟨-, he⟩
    · have hcall := Host.spares_of_grant (Instr.isBy_of_demand hi w.account w.locals) hg
      rw [Workspace.afterCall, he] at hkept ⊢
      exact hkept.trans <| hcall.mono fun token other hb => ⟨_, List.mem_cons_self, rfl, hb⟩
    · rw [Workspace.afterCall, he] at hkept ⊢
      exact hkept

/-- **Authority over the funds of others.** Over the run of any bytes as `account`, however it ends:
an account other than that has at least the native currency it had; allowances for other spenders
are as they were; and of a token of which no burn from it was granted, it has lost no more than
`account` has used of its allowance. -/
theorem runCode_spares_others {σ : Type} [Store σ] (code : List UInt8) (account : Address)
    (limits : Limits) (store : σ) (host : Host) {other : Address} (hne : other ≠ account) :
    let final := (runCode code account limits store host).2.work
    (host.nativeBalance other).toNat ≤ (final.host.nativeBalance other).toNat ∧
    (∀ token owner spender, spender ≠ account →
      final.host.allowance token owner spender = host.allowance token owner spender) ∧
    ∀ token,
      (∀ r ∈ final.journal, r.granted = true → ∀ amount, r.call ≠ .burn token other amount) →
      (final.host.allowance token other account).toNat
        ≤ (host.allowance token other account).toNat ∧
      (host.balanceOf token other).toNat + (final.host.allowance token other account).toNat
        ≤ (final.host.balanceOf token other).toNat
          + (host.allowance token other account).toNat := by
  intro final
  have hrun : final.Spares account host :=
    (Workspace.stable_spares account host).run ⟨rfl, .refl account _ host⟩
  obtain ⟨-, hs⟩ := hrun
  refine ⟨hs.native hne, fun token owner spender h => hs.foreign h token owner,
    fun token hb => ⟨hs.allowed token other, hs.tokens hne ?_⟩⟩
  rintro ⟨r, hr, hgranted, amount, hcall⟩
  exact hb r hr hgranted amount hcall

/-- Three of the five that an account may spend of the ten of another: the other has seven left, and
two of the allowance. -/
theorem runCode_spares_others_of_transferFrom :
    let alice : Address := .ofNat 1
    let store : Storage := Table.empty.insert (alice, .ofNat 1) (.ofAddress alice)
    let host := (Host.empty.setToken .zero .zero ⟨10, by decide⟩).approve .zero .zero alice
      ⟨5, by decide⟩
    let code := Opcode.transferFrom.code :: List.replicate 11 0 ++ [1] ++ List.replicate 31 0 ++ [3]
    let final := (runCode code alice .default store host).2.work
    (.zero : Address) ≠ alice ∧
    (∀ r ∈ final.journal, r.granted = true → ∀ amount, r.call ≠ .burn .zero .zero amount) ∧
    final.host.balanceOf .zero .zero = ⟨7, by decide⟩ ∧
    final.host.allowance .zero .zero alice = ⟨2, by decide⟩ ∧
    (host.balanceOf .zero .zero).toNat + (final.host.allowance .zero .zero alice).toNat
      ≤ (final.host.balanceOf .zero .zero).toNat
        + (host.allowance .zero .zero alice).toNat := by
  intro alice store host code final
  have hne : (.zero : Address) ≠ alice := by decide
  have hjournal : final.journal.map (·.call)
      = [.tokenTransferFrom .zero alice .zero alice ⟨3, by decide⟩] := by decide +kernel
  have hburn : ∀ r ∈ final.journal, r.granted = true →
      ∀ amount, r.call ≠ .burn .zero .zero amount := by
    intro r hr _ amount hcall
    have hmem := List.mem_map_of_mem (f := (·.call)) hr
    rw [hjournal, hcall] at hmem
    simp at hmem
  exact ⟨hne, hburn, by decide +kernel, by decide +kernel,
    ((runCode_spares_others code alice .default store host hne).2.2 .zero hburn).2⟩

end Proviso
