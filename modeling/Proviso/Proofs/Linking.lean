import Proviso.Proofs.Listings

/-!
# When an assembly links

Linking looks for four defects, one after another: a label that was there before, a size at which
offsets would not fit, a branch that leads nowhere, a body that no branch leads to.
`Assembly.Defect` says which of them is reported, and at which label, without looking: by the place
where it stands and by what the places before it are free of. What has none of them is
`Assembly.WellLinked`.

Main statement: `Assembly.links_iff_wellLinked`.
-/

namespace Proviso.Assembly

/-- Labels are distinct, every offset fits, and branches lead to all bodies and nowhere else. -/
structure WellLinked (a : Assembly) : Prop where
  distinct : a.labels.Nodup
  small : a.size ≤ 65535
  matched : ∀ l, l ∈ a.targets ↔ l ∈ a.labels

/-- The error that is reported for an assembly. Each kind of defect is reported only in the absence
of those before it, and for the first label that has it. -/
inductive Defect (a : Assembly) : CompileError → Prop where
  | repeated {before behind : List Token} {label : Token}
      (place : a.labels = before ++ label :: behind) (fresh : before.Nodup)
      (again : label ∈ before) : Defect a (.duplicateLabel label)
  | tooLarge (distinct : a.labels.Nodup) (large : 65535 < a.size) :
      Defect a (.programTooLarge a.size)
  | leadsNowhere {before behind : List Token} {label : Token} (distinct : a.labels.Nodup)
      (small : a.size ≤ 65535) (place : a.targets = before ++ label :: behind)
      (fine : ∀ l ∈ before, l ∈ a.labels) (missing : label ∉ a.labels) :
      Defect a (.undefinedLabel label)
  | unused {before behind : List Token} {label : Token} (distinct : a.labels.Nodup)
      (small : a.size ≤ 65535) (defined : ∀ l ∈ a.targets, l ∈ a.labels)
      (place : a.labels = before ++ label :: behind) (fine : ∀ l ∈ before, l ∈ a.targets)
      (missing : label ∉ a.targets) : Defect a (.unreferencedLabel label)

/-! ### The first label with a defect -/

/-- The first label that was there before: all labels up to it are different from each other. -/
theorem firstRepeated?_eq_some_iff {seen ls : List Token} {label : Token} :
    firstRepeated? seen ls = some label ↔
      ∃ before behind, ls = before ++ label :: behind ∧ before.Nodup ∧ (∀ l ∈ before, l ∉ seen) ∧
        (label ∈ seen ∨ label ∈ before) := by
  induction ls generalizing seen with
  | nil => simp [firstRepeated?]
  | cons l ls ih =>
    rw [firstRepeated?]
    by_cases hs : l ∈ seen
    · rw [if_pos (by simpa using hs)]
      constructor
      · intro h
        cases h
        exact ⟨[], ls, rfl, .nil, by simp, .inl hs⟩
      · rintro ⟨before, behind, hls, -, hb, -⟩
        cases before with
        | nil => cases hls; rfl
        | cons k before => cases hls; exact absurd hs (hb l List.mem_cons_self)
    · rw [if_neg (by simpa using hs), ih]
      constructor
      · rintro ⟨before, behind, rfl, hn, hb, hl⟩
        refine ⟨l :: before, behind, rfl, List.nodup_cons.mpr ⟨fun hm => ?_, hn⟩, ?_, ?_⟩
        · exact hb l hm List.mem_cons_self
        · rintro k (_ | ⟨_, hk⟩)
          · exact hs
          · exact fun hm => hb k hk (List.mem_cons_of_mem _ hm)
        · rw [List.mem_cons] at hl ⊢
          exact or_left_comm.mp (or_assoc.mp hl)
      · rintro ⟨before, behind, hls, hn, hb, hl⟩
        cases before with
        | nil =>
          cases hls
          exact absurd hl (by simpa using hs)
        | cons k before =>
          cases hls
          obtain ⟨hk, hn⟩ := List.nodup_cons.mp hn
          refine ⟨before, behind, rfl, hn, fun j hj => ?_, ?_⟩
          · rw [List.mem_cons, not_or]
            exact ⟨fun he => hk (he ▸ hj), hb j (List.mem_cons_of_mem _ hj)⟩
          · rw [List.mem_cons] at hl ⊢
            exact or_assoc.mpr (or_left_comm.mp hl)

/-- The first element of one list that is not in another. -/
theorem find?_not_contains_eq_some_iff {ls known : List Token} {label : Token} :
    (ls.find? fun l => !known.contains l) = some label ↔
      ∃ before behind, ls = before ++ label :: behind ∧ (∀ l ∈ before, l ∈ known) ∧
        label ∉ known := by
  rw [List.find?_eq_some_iff_append]
  constructor
  · rintro ⟨hl, before, behind, rfl, hb⟩
    exact ⟨before, behind, rfl, by simpa using hb, by simpa using hl⟩
  · rintro ⟨before, behind, rfl, hb, hl⟩
    exact ⟨by simpa using hl, before, behind, rfl, by simpa using hb⟩

/-! ### What is reported -/

variable {a : Assembly}

/-- Nothing is found wrong with the labels of an assembly if they are distinct. -/
theorem firstRepeated?_labels (h : a.labels.Nodup) : firstRepeated? [] a.labels = none :=
  firstRepeated?_eq_none_iff.mpr ⟨h, fun _ _ => List.not_mem_nil⟩

/-- The defect of an assembly is reported. -/
theorem Defect.defect?_eq {e : CompileError} (h : a.Defect e) : a.defect? = some e := by
  cases h with
  | @repeated before behind label place fresh again =>
    have hrep : firstRepeated? [] a.labels = some label := firstRepeated?_eq_some_iff.mpr
      ⟨before, behind, place, fresh, fun _ _ => List.not_mem_nil, .inr again⟩
    rw [defect?, hrep]
  | tooLarge distinct large =>
    rw [defect?, firstRepeated?_labels distinct]
    exact if_pos large
  | leadsNowhere distinct small place fine missing =>
    have hsize : ¬ maxSize < a.size := Nat.not_lt.mpr small
    have hundef := find?_not_contains_eq_some_iff.mpr ⟨_, _, place, fine, missing⟩
    rw [defect?, firstRepeated?_labels distinct]
    dsimp only
    rw [if_neg hsize, hundef]
  | unused distinct small defined place fine missing =>
    have hsize : ¬ maxSize < a.size := Nat.not_lt.mpr small
    have hundef : (a.targets.find? fun l => !a.labels.contains l) = none := by
      simpa [List.find?_eq_none] using defined
    have hunref := find?_not_contains_eq_some_iff.mpr ⟨_, _, place, fine, missing⟩
    rw [defect?, firstRepeated?_labels distinct]
    dsimp only
    rw [if_neg hsize, hundef, hunref]
    rfl

/-- What is reported is its defect. -/
theorem defect_of_defect? {e : CompileError} (h : a.defect? = some e) : a.Defect e := by
  unfold defect? at h
  split at h
  · next hrep =>
    cases h
    obtain ⟨before, behind, place, fresh, -, hseen | again⟩ := firstRepeated?_eq_some_iff.mp hrep
    · cases hseen
    · exact .repeated place fresh again
  · next hrep =>
    have distinct := (firstRepeated?_eq_none_iff.mp hrep).1
    split at h
    · next large =>
      cases h
      exact .tooLarge distinct large
    · next hs =>
      have small := Nat.le_of_not_lt hs
      split at h
      · next hundef =>
        cases h
        obtain ⟨before, behind, place, fine, missing⟩ := find?_not_contains_eq_some_iff.mp hundef
        exact .leadsNowhere distinct small place fine missing
      · next hundef =>
        obtain ⟨l, hunref, rfl⟩ := Option.map_eq_some_iff.mp h
        obtain ⟨before, behind, place, fine, missing⟩ := find?_not_contains_eq_some_iff.mp hunref
        have defined : ∀ l ∈ a.targets, l ∈ a.labels := by
          simpa [List.find?_eq_none] using hundef
        exact .unused distinct small defined place fine missing

/-- Linking fails with the defect of an assembly. -/
theorem link_eq_error_iff {e : CompileError} : a.link = .error e ↔ a.defect? = some e := by
  rw [link]
  cases a.defect? with
  | none => simp
  | some e => simp

/-- An assembly is well linked if nothing is reported. -/
theorem wellLinked_iff : a.WellLinked ↔ a.defect? = none := by
  rw [defect?_eq_none_iff]
  constructor
  · rintro ⟨distinct, small, matched⟩
    exact ⟨distinct, small, fun l => (matched l).mp, fun l => (matched l).mpr⟩
  · rintro ⟨distinct, small, defined, used⟩
    exact ⟨distinct, small, fun l => ⟨defined l, used l⟩⟩

/-- **Linking succeeds exactly on well-linked programs.** An assembly has bytes if and only if its
labels are distinct, its instructions take at most 65535 bytes, and the labels that they name are
those of its bodies. Otherwise the error is that of the first repeated label; or else it gives the
size; or else it names the first target in program order that has no body; or else the first body
that is no target. -/
theorem links_iff_wellLinked (a : Assembly) :
    ((∃ code, a.link = .ok code) ↔ a.WellLinked) ∧
    ∀ e, a.link = .error e ↔ a.Defect e := by
  refine ⟨exists_link_iff.trans wellLinked_iff.symm, fun e => link_eq_error_iff.trans ?_⟩
  exact ⟨defect_of_defect?, Defect.defect?_eq⟩

end Proviso.Assembly
