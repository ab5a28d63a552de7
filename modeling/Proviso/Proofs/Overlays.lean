import Proviso.Proofs.Stores

/-!
# Nested overlays

A script reads and writes a store, and opens blocks in which it works on an overlay over the store,
to any depth; at its end a block is committed or dropped. Reads in a block fall through the overlays
under it, and the writes of a block reach the store in the order of their keys, the last to each key
only. None of this shows: a script reads what it would read from one plain map, into which every
block writes at once, and which is restored where a dropped block ends.

The proof is by induction on the script, over every store at once, because a block runs on a store
of another type. It carries along that a store reads as the plain map does (`Script.direct_run`);
what a block leaves in its overlay is found by a second induction (`Script.get?_writes_run`).

Main statement: `Script.run_iff_direct`.
-/

namespace Proviso

/-! ### Scripts and transcripts -/

/-- What is done with a store, one thing after another. -/
inductive Script where
  | done
  | get (a : Address) (k : Slot) (next : Script)
  | load (a : Address) (k : Slot) (next : Script)
  | put (a : Address) (k : Slot) (w : Word) (next : Script)
  /-- Works on an overlay, which is then committed or dropped. -/
  | block (commits : Bool) (body next : Script)

/-- What a script is told: the results of its reads, and of each block the writes that it left. -/
inductive Transcript where
  | done
  | found (w? : Option Word) (next : Transcript)
  | loaded (w : Word) (next : Transcript)
  | block (body : Transcript) (writes : List ((Address × Slot) × Word)) (next : Transcript)

/-- The contents of a plain map. -/
abbrev Contents := Address → Slot → Option Word

/-- The contents with one word written. -/
def Contents.put (m : Contents) (a : Address) (k : Slot) (w : Word) : Contents :=
  fun b j => if (a, k) = (b, j) then some w else m b j

namespace Script

/-- Runs a script on a store. -/
def run {σ : Type} [Store σ] (s : σ) : Script → Transcript × σ
  | .done                => (.done, s)
  | .get a k next        =>
    let (t, s') := next.run s
    (.found (Store.get? s a k) t, s')
  | .load a k next       =>
    let (t, s') := next.run s
    (.loaded (Store.load s a k) t, s')
  | .put a k w next      => next.run (Store.put s a k w)
  | .block commits body next =>
    let (inner, o) := body.run (Overlay.ofBase s)
    let (t, s') := next.run (if commits then o.commit else o.base)
    (.block inner o.writes.entries t, s')

/-- The writes of a script, in order; those of a block count if it is committed. -/
def pushes : Script → List ((Address × Slot) × Word)
  | .done                 => []
  | .get _ _ next         => next.pushes
  | .load _ _ next        => next.pushes
  | .put a k w next       => ((a, k), w) :: next.pushes
  | .block true body next => body.pushes ++ next.pushes
  | .block false _ next   => next.pushes

end Script

/-- The last value that is pushed under a key. -/
def lastPushed (ps : List ((Address × Slot) × Word)) (k : Address × Slot) : Option Word :=
  ps.reverse.lookup k

/-- A list of writes has the keys that are pushed, each once and in their order, with the last value
of each. -/
structure Lists (ps ws : List ((Address × Slot) × Word)) : Prop where
  rising : ws.Pairwise fun e e' => rank e.1 < rank e'.1
  mem_iff : ∀ k w, (k, w) ∈ ws ↔ lastPushed ps k = some w

/-- A script on a plain map: what it is told, and the map that it leaves. A block writes to the map
itself; if it is dropped, the map is again as it was before. -/
inductive Direct : Contents → Script → Transcript → Contents → Prop where
  | done (m : Contents) : Direct m .done .done m
  | get {m m' : Contents} {a : Address} {k : Slot} {next : Script} {t : Transcript}
      (h : Direct m next t m') : Direct m (.get a k next) (.found (m a k) t) m'
  | load {m m' : Contents} {a : Address} {k : Slot} {next : Script} {t : Transcript}
      (h : Direct m next t m') : Direct m (.load a k next) (.loaded ((m a k).getD .zero) t) m'
  | put {m m' : Contents} {a : Address} {k : Slot} {w : Word} {next : Script} {t : Transcript}
      (h : Direct (m.put a k w) next t m') : Direct m (.put a k w next) t m'
  | commit {m m₁ m' : Contents} {body next : Script} {inner t : Transcript}
      {ws : List ((Address × Slot) × Word)} (hb : Direct m body inner m₁)
      (hw : Lists body.pushes ws) (h : Direct m₁ next t m') :
      Direct m (.block true body next) (.block inner ws t) m'
  | discard {m m₁ m' : Contents} {body next : Script} {inner t : Transcript}
      {ws : List ((Address × Slot) × Word)} (hb : Direct m body inner m₁)
      (hw : Lists body.pushes ws) (h : Direct m next t m') :
      Direct m (.block false body next) (.block inner ws t) m'

/-! ### Lists of writes -/

/-- In an ordered list an entry is found exactly if it is there. -/
theorem Table.find?_eq_some_iff {κ ν : Type} [Ranked κ] {l : List (κ × ν)}
    (hl : l.Pairwise fun a b => rank a.1 < rank b.1) {k : κ} {v : ν} :
    find? k l = some v ↔ (k, v) ∈ l := by
  induction l with
  | nil => simp [find?]
  | cons e r ih =>
    obtain ⟨hb, hr⟩ := List.pairwise_cons.mp hl
    rw [find?, List.mem_cons]
    by_cases hk : rank e.1 = rank k
    · -- every later key is larger
      have hnot : (k, v) ∉ r := fun hm => Nat.lt_irrefl _ (hk ▸ hb _ hm)
      have hkey : e.1 = k := Ranked.rank_inj hk
      rw [if_pos hk, or_iff_left hnot, Option.some.injEq, ← hkey]
      exact ⟨fun hv => Prod.ext rfl hv.symm, fun he => (congrArg Prod.snd he).symm⟩
    · have hne : (k, v) ≠ e := fun he => hk (by rw [← he])
      rw [if_neg hk, ih hr, or_iff_right hne]

section Lists

variable {ps qs ws ws' : List ((Address × Slot) × Word)}

/-- A later write hides an earlier one. -/
theorem lastPushed_append (k : Address × Slot) :
    lastPushed (ps ++ qs) k = (lastPushed qs k).or (lastPushed ps k) := by
  rw [lastPushed, List.reverse_append, List.lookup_append]
  rfl

/-- Each key has the word that was written last. -/
theorem Lists.find?_eq (h : Lists ps ws) (k : Address × Slot) :
    Table.find? k ws = lastPushed ps k :=
  Option.ext fun w => (Table.find?_eq_some_iff h.rising).trans (h.mem_iff k w)

/-- The listing of given writes is unique. -/
theorem Lists.eq (h : Lists ps ws) (h' : Lists ps ws') : ws = ws' :=
  Table.eq_of_find? h.rising h'.rising fun k => (h.find?_eq k).trans (h'.find?_eq k).symm

theorem lists_entries {t : Storage} (h : ∀ k, t.get? k = lastPushed ps k) : Lists ps t.entries where
  rising := t.rising
  mem_iff k w := by rw [← h k, Table.get?, Table.find?_eq_some_iff t.rising]

end Lists

/-! ### One script, on a store and on a plain map -/

namespace Overlay

variable {σ : Type} [Store σ]

/-- Writes that are put into an overlay one after another end up among its own. -/
theorem foldl_put_eq (es : List ((Address × Slot) × Word)) (o : Overlay σ) :
    es.foldl (fun o e => Store.put o e.1.1 e.1.2 e.2) o
      = ⟨o.base, es.foldl (fun s e => Store.put s e.1.1 e.1.2 e.2) o.writes⟩ := by
  induction es generalizing o with
  | nil => rfl
  | cons e es ih =>
    rw [List.foldl_cons, ih]
    rfl

/-- A commit leaves the base below. -/
theorem base_commit (o : Overlay (Overlay σ)) : o.commit.base = o.base.base := by
  rw [commit, foldl_put_eq]

/-- An inner overlay that is committed writes over the writes of the outer one. -/
theorem get?_writes_commit (o : Overlay (Overlay σ)) (k : Address × Slot) :
    o.commit.writes.get? k = (o.writes.get? k).or (o.base.writes.get? k) := by
  rw [commit, foldl_put_eq]
  exact get?_foldl_put o.writes.rising o.base.writes k.1 k.2

end Overlay

namespace Script

variable {σ : Type} [Store σ]

/-- A script on an overlay leaves the store under it alone. -/
theorem base_run (ops : Script) (o : Overlay σ) : (ops.run o).2.base = o.base := by
  induction ops generalizing σ with
  | done => rfl
  | get a k next ih => exact ih o
  | load a k next ih => exact ih o
  | put a k w next ih => exact ih (Store.put o a k w)
  | block commits body next ihb ih =>
    refine (ih _).trans ?_
    have hb : (body.run (Overlay.ofBase o)).2.base = o := ihb (Overlay.ofBase o)
    cases commits with
    | true => exact (Overlay.base_commit _).trans (congrArg Overlay.base hb)
    | false => exact congrArg Overlay.base hb

/-- A dropped block leaves the store as it was. -/
theorem run_dropped (body next : Script) (s : σ) :
    ((block false body next).run s).2 = (next.run s).2 :=
  congrArg (fun u => (next.run u).2) (base_run body (Overlay.ofBase s))

/-- The writes of an overlay after a script: the last word that is pushed under a key, and what the
overlay held under the others. -/
theorem get?_writes_run (ops : Script) (o : Overlay σ) (k : Address × Slot) :
    (ops.run o).2.writes.get? k = (lastPushed ops.pushes k).or (o.writes.get? k) := by
  induction ops generalizing σ with
  | done => rfl
  | get a j next ih => exact ih o
  | load a j next ih => exact ih o
  | put a j w next ih =>
    have hput : (Store.put o a j w).writes.get? k
        = (lastPushed [((a, j), w)] k).or (o.writes.get? k) := by
      show (o.writes.insert (a, j) w).get? k = _
      by_cases hk : k = (a, j)
      · subst hk
        rw [Table.get?_insert_self, lastPushed, List.reverse_singleton, List.lookup_cons_self]
        rfl
      · have hne : (k == (a, j)) = false := beq_eq_false_iff_ne.mpr hk
        rw [Table.get?_insert_of_ne _ _ (Ne.symm hk), lastPushed, List.reverse_singleton,
          List.lookup_cons, hne]
        rfl
    rw [run, ih, hput, ← Option.or_assoc, ← lastPushed_append]
    rfl
  | block commits body next ihb ih =>
    cases commits with
    | true =>
      have hcommit : (body.run (Overlay.ofBase o)).2.commit.writes.get? k
          = (lastPushed body.pushes k).or (o.writes.get? k) := by
        rw [Overlay.get?_writes_commit, ihb, base_run]
        exact congrArg (·.or (o.writes.get? k)) Option.or_none
      rw [pushes, lastPushed_append, Option.or_assoc, ← hcommit]
      exact ih _
    | false =>
      rw [run_dropped]
      exact ih o

/-- The writes of a block are the pushes in it. -/
theorem lists_writes (body : Script) (s : σ) :
    Lists body.pushes (body.run (Overlay.ofBase s)).2.writes.entries := by
  refine lists_entries fun k => ?_
  rw [get?_writes_run]
  exact Option.or_none

/-- A script does to a store what it does to a plain map that reads as the store does. -/
theorem direct_run [LawfulStore σ] (ops : Script) (s : σ) :
    Direct (Store.get? s) ops (ops.run s).1 (Store.get? (ops.run s).2) := by
  induction ops generalizing σ with
  | done => exact .done _
  | get a k next ih => exact .get (ih s)
  | load a k next ih => exact .load (ih s)
  | put a k w next ih =>
    have hput : Store.get? (Store.put s a k w) = Contents.put (Store.get? s) a k w :=
      funext fun b => funext fun j => LawfulStore.get?_put s a k w b j
    exact .put (hput ▸ ih (Store.put s a k w))
  | block commits body next ihb ih =>
    have hb : Direct (Store.get? s) body _ _ := ihb (Overlay.ofBase s)
    cases commits with
    | true =>
      have hcommit : Store.get? (body.run (Overlay.ofBase s)).2.commit
          = Store.get? (body.run (Overlay.ofBase s)).2 :=
        funext fun a => funext fun k => Overlay.agree_commit _ a k
      exact .commit hb (lists_writes body s) (hcommit ▸ ih _)
    | false =>
      have hbase : (body.run (Overlay.ofBase s)).2.base = s := base_run body (Overlay.ofBase s)
      have hn : Direct (Store.get? s) next (next.run (body.run (Overlay.ofBase s)).2.base).1
          (Store.get? (next.run (body.run (Overlay.ofBase s)).2.base).2) := by
        rw [hbase]
        exact ih s
      exact .discard hb (lists_writes body s) hn

end Script

/-- A plain map gives a script one answer. -/
theorem Direct.eq {m m₁ m₂ : Contents} {ops : Script} {t₁ t₂ : Transcript}
    (h₁ : Direct m ops t₁ m₁) (h₂ : Direct m ops t₂ m₂) : t₁ = t₂ ∧ m₁ = m₂ := by
  induction h₁ generalizing t₂ m₂ with
  | done m =>
    cases h₂
    exact ⟨rfl, rfl⟩
  | get _ ih =>
    cases h₂ with
    | get h =>
      obtain ⟨rfl, rfl⟩ := ih h
      exact ⟨rfl, rfl⟩
  | load _ ih =>
    cases h₂ with
    | load h =>
      obtain ⟨rfl, rfl⟩ := ih h
      exact ⟨rfl, rfl⟩
  | put _ ih =>
    cases h₂ with
    | put h => exact ih h
  | commit _ hw _ ihb ih =>
    cases h₂ with
    | commit hb' hw' h' =>
      obtain ⟨rfl, rfl⟩ := ihb hb'
      obtain ⟨rfl, rfl⟩ := ih h'
      exact ⟨by rw [hw.eq hw'], rfl⟩
  | discard _ hw _ ihb ih =>
    cases h₂ with
    | discard hb' hw' h' =>
      obtain ⟨rfl, -⟩ := ihb hb'
      obtain ⟨rfl, rfl⟩ := ih h'
      exact ⟨by rw [hw.eq hw'], rfl⟩

/-- Blocks over a storage are writes to a plain map: a script is told on storage, and leaves there,
exactly what it is told by the map and leaves in it. A block that is dropped leaves any store as it
was. -/
theorem Script.run_iff_direct :
    (∀ (ops : Script) (s : Storage) (t : Transcript) (m : Contents),
      Direct (Store.get? s) ops t m ↔ t = (ops.run s).1 ∧ m = Store.get? (ops.run s).2)
    ∧ ∀ (σ : Type) [Store σ] (body : Script) (s : σ),
      ((Script.block false body .done).run s).2 = s := by
  refine ⟨fun ops s t m => ⟨fun h => h.eq (ops.direct_run s), ?_⟩,
    fun σ _ body s => Script.run_dropped body .done s⟩
  rintro ⟨rfl, rfl⟩
  exact ops.direct_run s

end Proviso
