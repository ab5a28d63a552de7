import Mathlib.Data.List.Nodup
import Proviso.Registry.Index

/-!
# Registration

What calls of `register` make of a new registry. A registry keeps its entries three times over: in
order, by name and by byte. That the three agree (`Index.Consistent`) is said with one notion for
names and bytes, a map from keys that leads to exactly the places of the entries that have them
(`Locates`).

A call is refused if the name of its entry is taken, or else its byte (`Refused`); no other call is
(`Index.Consistent.register_cases`). A refused call leaves the registry as it is, and an accepted
one keeps the three in agreement, so they agree after any calls (`Index.registerAll_spec`). The
look-ups through the indexes are then those of the entries as a list
(`Index.Consistent.byCode?_eq`, `Index.Consistent.lookup?_eq`).

Main statement: `Index.registered_consistent`.
-/

namespace Proviso.Registry

variable {e : Entry}

/-! ### Look-up by a key -/

section Key

variable {κ : Type} [BEq κ] [LawfulBEq κ] {key : Entry → κ} {es : List Entry} {k : κ}

/-- What a look-up by a key finds is held and has the key. -/
theorem mem_of_find?_key (h : es.find? (key · == k) = some e) : e ∈ es ∧ key e = k := by
  have hkey := List.find?_some h
  exact ⟨List.mem_of_find?_eq_some h, eq_of_beq hkey⟩

/-- Where no two entries share a key, the first one with a key is the only one. -/
theorem find?_key_eq_some_iff (h : (es.map key).Nodup) :
    es.find? (key · == k) = some e ↔ e ∈ es ∧ key e = k := by
  refine ⟨mem_of_find?_key, ?_⟩
  rintro ⟨hmem, rfl⟩
  obtain ⟨x, hx⟩ : ∃ x, es.find? (key · == key e) = some x :=
    Option.isSome_iff_exists.mp (List.find?_isSome.mpr ⟨e, hmem, beq_self_eq_true _⟩)
  obtain ⟨hmem', hkey⟩ := mem_of_find?_key hx
  rw [hx, List.inj_on_of_nodup_map h hmem' hmem hkey]

end Key

/-! ### Places of keys -/

/-- A map from keys leads to exactly the places of the entries that have them. -/
def Locates {κ : Type} (key : Entry → κ) (es : List Entry) (place : κ → Option Nat) : Prop :=
  ∀ k i, place k = some i ↔ ∃ x, es[i]? = some x ∧ key x = k

namespace Locates

variable {κ : Type} {key : Entry → κ} {es : List Entry} {place : κ → Option Nat} {k : κ}

/-- An entry stands where its key leads. -/
theorem place_key (h : Locates key es place) {i : Nat} {x : Entry} (hx : es[i]? = some x) :
    place (key x) = some i :=
  (h _ _).mpr ⟨x, hx, rfl⟩

/-- A key that leads to one place only belongs to one entry only. -/
theorem nodup (h : Locates key es place) : (es.map key).Nodup := by
  rw [List.nodup_iff_getElem?_ne_getElem?]
  intro i j hij hj heq
  rw [List.length_map] at hj
  rw [List.getElem?_map, List.getElem?_map, List.getElem?_eq_getElem hj,
    List.getElem?_eq_getElem (Nat.lt_trans hij hj), Option.map_some, Option.map_some,
    Option.some_inj] at heq
  have hi := h.place_key (List.getElem?_eq_getElem (Nat.lt_trans hij hj))
  rw [heq, h.place_key (List.getElem?_eq_getElem hj), Option.some_inj] at hi
  exact Nat.ne_of_gt hij hi

/-- A key leads nowhere if no entry has it. -/
theorem eq_none_iff (h : Locates key es place) : place k = none ↔ ∀ x ∈ es, key x ≠ k := by
  constructor
  · rintro hk x hx rfl
    obtain ⟨i, hi⟩ := List.mem_iff_getElem?.mp hx
    rw [h.place_key hi] at hk
    cases hk
  · intro hk
    refine Option.eq_none_iff_forall_ne_some.mpr fun i hi => ?_
    obtain ⟨x, hx, hkey⟩ := (h k i).mp hi
    exact hk x (List.mem_of_getElem? hx) hkey

/-- Going to the place of a key finds what a search through the entries finds. -/
theorem bind_eq_find? [BEq κ] [LawfulBEq κ] (h : Locates key es place) (k : κ) :
    ((place k).bind fun i => es[i]?) = es.find? (key · == k) := by
  cases hk : place k with
  | none =>
    have hnone := h.eq_none_iff.mp hk
    exact (List.find?_eq_none.mpr fun x hx hb => hnone x hx (eq_of_beq hb)).symm
  | some i =>
    obtain ⟨x, hx, hkey⟩ := (h k i).mp hk
    rw [Option.bind_some, hx, (find?_key_eq_some_iff h.nodup).mpr ⟨List.mem_of_getElem? hx, hkey⟩]

/-- Without entries no key leads anywhere. -/
theorem nil : Locates key [] fun _ => none :=
  fun _ _ => ⟨by rintro ⟨⟩, by rintro ⟨x, ⟨⟩, -⟩⟩

/-- One more entry under a key that none had: its place is the end. -/
theorem snoc [DecidableEq κ] (h : Locates key es place) (hnew : ∀ x ∈ es, key x ≠ key e) :
    Locates key (es ++ [e]) fun k => if k = key e then some es.length else place k := by
  intro k i
  show (if k = key e then some es.length else place k) = some i ↔ _
  by_cases hk : k = key e
  · subst hk
    rw [if_pos rfl, Option.some_inj]
    constructor
    · rintro rfl
      exact ⟨e, List.getElem?_concat_length, rfl⟩
    · rintro ⟨x, hx, hkey⟩
      rcases Nat.lt_or_ge i es.length with hi | hi
      · rw [List.getElem?_append_left hi] at hx
        exact absurd hkey (hnew x (List.mem_of_getElem? hx))
      · have hlt := (List.getElem?_eq_some_iff.mp hx).1
        rw [List.length_append, List.length_singleton] at hlt
        omega
  · rw [if_neg hk, h k i]
    refine exists_congr fun x => and_congr_left fun hkey => ?_
    rcases Nat.lt_or_ge i es.length with hi | hi
    · rw [List.getElem?_append_left hi]
    · -- behind the others there is only the new entry, whose key is another one
      rw [List.getElem?_eq_none hi, List.getElem?_append_right hi, List.getElem?_singleton]
      refine iff_of_false (by rintro ⟨⟩) fun hx => ?_
      split at hx
      · cases hx
        exact hk hkey.symm
      · cases hx

end Locates

/-! ### One call -/

/-- Neither the name nor the byte of an entry is taken by those that are held. -/
def Unused (held : List Entry) (e : Entry) : Prop :=
  ∀ x ∈ held, x.name ≠ e.name ∧ x.code ≠ e.code

/-- Why an entry is refused next to those that are held: its name is taken, or its name is not and
its byte is. -/
inductive Refused (held : List Entry) (e : Entry) : RegistryError → Prop where
  | name {x : Entry} (hx : x ∈ held) (hname : x.name = e.name) :
      Refused held e (.duplicateName e.name)
  | code {x : Entry} (hnames : ∀ y ∈ held, y.name ≠ e.name) (hx : x ∈ held)
      (hcode : x.code = e.code) : Refused held e (.duplicateCode e.code x.name)

namespace Refused

variable {held : List Entry} {x y : RegistryError}

/-- A refused entry is not new in both name and byte. -/
theorem not_unused (h : Refused held e x) : ¬ Unused held e := by
  intro hu
  cases h with
  | name hx hname => exact (hu _ hx).1 hname
  | code _ hx hcode => exact (hu _ hx).2 hcode

/-- There is one reason, since a byte has one holder. -/
theorem unique (hcodes : (held.map Entry.code).Nodup) (hx : Refused held e x)
    (hy : Refused held e y) : x = y := by
  cases hx with
  | name hmem hname =>
    cases hy with
    | name => rfl
    | code hnames => exact absurd hname (hnames _ hmem)
  | code hnames hmem hcode =>
    cases hy with
    | name hmem' hname => exact absurd hname (hnames _ hmem')
    | code _ hmem' hcode' =>
      rw [List.inj_on_of_nodup_map hcodes hmem hmem' (hcode.trans hcode'.symm)]

end Refused

namespace Index

/-- The entry in front answers for its own key. -/
theorem lookup_cons_eq_ite {β : Type} (name key : String) (v : β) (l : List (String × β)) :
    ((key, v) :: l).lookup name = if name = key then some v else l.lookup name := by
  rw [List.lookup_cons]
  by_cases h : name = key
  · rw [if_pos h, beq_iff_eq.mpr h]
  · rw [if_neg h, beq_eq_false_iff_ne.mpr h]

variable {r : Index}

/-- The entries, the map from names and the table of bytes agree. -/
structure Consistent (r : Index) : Prop where
  names : Locates Entry.name r.entries.toList fun name => r.names.lookup name
  codes : Locates Entry.code r.entries.toList fun code => r.codes.get code.toFin
  aliases : r.aliases = empty.aliases

/-- The registry with one more entry at the end, and its place noted under its name and byte. -/
def add (r : Index) (e : Entry) : Index where
  entries := r.entries.push e
  names := (e.name, r.entries.size) :: r.names
  codes := r.codes.set e.code.toNat (some r.entries.size) e.code_lt
  aliases := r.aliases

/-- Both checks come before the first change, and the three changes together add the entry. -/
theorem register_apply (e : Entry) (r : Index) :
    register e r =
      if (r.names.lookup e.name).isSome then (.error (.duplicateName e.name), r)
      else
        match r.codes.get e.code.toFin with
        | some i => (.error (.duplicateCode e.code (((r.entries[i]?).map Entry.name).getD "")), r)
        | none   => (.ok (), r.add e) := by
  rw [register, Act.bind_apply]
  show (if (r.names.lookup e.name).isSome then _ else _ : Act RegistryError Index Unit) r = _
  split
  · rfl
  · rw [Act.bind_apply]
    show (match r.codes.get e.code.toFin with
      | some i => _
      | none   => _ : Act RegistryError Index Unit) r = _
    cases r.codes.get e.code.toFin <;> rfl

/-- A new registry is consistent. -/
theorem consistent_empty : empty.Consistent where
  names := .nil
  codes := by
    have hnone : (fun code : UInt8 => empty.codes.get code.toFin) = fun _ => none :=
      funext fun code => Vector.getElem_replicate code.toNat_lt
    rw [hnone]
    exact .nil
  aliases := rfl

namespace Consistent

/-- An entry that is unused can be added. -/
theorem add (h : r.Consistent) (hu : Unused r.entries.toList e) : (r.add e).Consistent where
  names := by
    have hnames : (fun name => (r.add e).names.lookup name)
        = fun name => if name = e.name then some r.entries.toList.length
          else r.names.lookup name := by
      funext name
      rw [Index.add, lookup_cons_eq_ite, Array.length_toList]
    rw [hnames, Index.add, Array.toList_push]
    exact h.names.snoc fun x hx => (hu x hx).1
  codes := by
    have hcodes : (fun code : UInt8 => (r.add e).codes.get code.toFin)
        = fun code => if code = e.code then some r.entries.toList.length
          else r.codes.get code.toFin := by
      funext code
      rw [Array.length_toList]
      refine (Vector.getElem_set e.code.toNat_lt code.toNat_lt).trans ?_
      by_cases hcode : code = e.code
      · rw [if_pos hcode, if_pos (congrArg UInt8.toNat hcode.symm)]
      · rw [if_neg hcode, if_neg fun he => hcode (UInt8.toNat_inj.mp he.symm)]
        rfl
    rw [hcodes, Index.add, Array.toList_push]
    exact h.codes.snoc fun x hx => (hu x hx).2
  aliases := h.aliases

/-- **What a call can do.** It is refused for a reason and changes nothing, or it adds its entry. -/
theorem register_cases (h : r.Consistent) (e : Entry) :
    (∃ x, register e r = (.error x, r) ∧ Refused r.entries.toList e x) ∨
      register e r = (.ok (), r.add e) ∧ Unused r.entries.toList e := by
  rw [register_apply]
  cases hname : r.names.lookup e.name with
  | some i =>
    obtain ⟨x, hx, hname⟩ := (h.names e.name i).mp hname
    exact .inl ⟨_, rfl, .name (List.mem_of_getElem? hx) hname⟩
  | none =>
    have hnames := h.names.eq_none_iff.mp hname
    cases hcode : r.codes.get e.code.toFin with
    | some i =>
      obtain ⟨x, hx, hcode⟩ := (h.codes e.code i).mp hcode
      rw [Array.getElem?_toList] at hx
      refine .inl ⟨.duplicateCode e.code x.name, ?_, .code hnames ?_ hcode⟩
      · simp [hx]
      · exact Array.mem_toList_iff.mpr (Array.mem_of_getElem? hx)
    | none =>
      have hcodes := h.codes.eq_none_iff.mp hcode
      exact .inr ⟨rfl, fun x hx => ⟨hnames x hx, hcodes x hx⟩⟩

/-- A call is refused exactly if there is a reason. -/
theorem register_eq_error_iff (h : r.Consistent) {x : RegistryError} {r' : Index} :
    register e r = (.error x, r') ↔ Refused r.entries.toList e x ∧ r' = r := by
  rcases h.register_cases e with ⟨y, hr, hy⟩ | ⟨hr, hu⟩ <;> rw [hr]
  · constructor
    · intro he
      cases he
      exact ⟨hy, rfl⟩
    · rintro ⟨hx, rfl⟩
      rw [hx.unique h.codes.nodup hy]
  · exact iff_of_false (by rintro ⟨⟩) fun hx => hx.1.not_unused hu

/-- A call is accepted exactly if name and byte of its entry are unused. -/
theorem register_eq_ok_iff (h : r.Consistent) {r' : Index} :
    register e r = (.ok (), r') ↔ Unused r.entries.toList e ∧ r' = r.add e := by
  rcases h.register_cases e with ⟨y, hr, hy⟩ | ⟨hr, hu⟩ <;> rw [hr]
  · exact iff_of_false (by rintro ⟨⟩) fun hu => hy.not_unused hu.1
  · constructor
    · intro he
      cases he
      exact ⟨hu, rfl⟩
    · rintro ⟨-, rfl⟩
      rfl

/-! ### The indexes and the list -/

/-- The table of bytes finds what a search through the entries finds. -/
theorem byCode?_eq (h : r.Consistent) (code : UInt8) :
    r.byCode? code = r.toRegistry.byCode? code := by
  rw [Registry.byCode?, toRegistry, ← h.codes.bind_eq_find?, byCode?]
  simp only [Array.getElem?_toList]

/-- Aliases and the map from names find what a search through the entries finds. -/
theorem lookup?_eq (h : r.Consistent) (token : String) :
    r.lookup? token = r.toRegistry.lookup? token := by
  have halias : (r.aliases.lookup token).getD token = resolveAlias token := by
    rw [h.aliases, empty, lookup_cons_eq_ite, resolveAlias]
    by_cases ht : token = "uint"
    · rw [if_pos ht, if_pos ht, Option.getD_some]
    · rw [if_neg ht, if_neg ht, List.lookup_nil, Option.getD_none]
  rw [Registry.lookup?, byName?, toRegistry, ← h.names.bind_eq_find?, lookup?, halias]
  simp only [Array.getElem?_toList]

end Consistent

/-! ### Any calls -/

/-- The entries of the calls that were not refused, in order. -/
def accepted (calls : List Entry) (answers : List (Except RegistryError Unit)) : List Entry :=
  ((calls.zip answers).filter fun c => c.2.isOk).map Prod.fst

/-- **What calls make of a registry.** It stays consistent, and holds what they were accepted for
behind what it held. -/
theorem registerAll_spec (h : r.Consistent) (calls : List Entry) :
    (registerAll calls r).2.Consistent ∧
    (registerAll calls r).2.entries.toList
      = r.entries.toList ++ accepted calls (registerAll calls r).1 := by
  induction calls generalizing r with
  | nil => exact ⟨h, (List.append_nil _).symm⟩
  | cons e calls ih =>
    rw [registerAll]
    rcases h.register_cases e with ⟨x, hr, -⟩ | ⟨hr, hu⟩ <;> rw [hr]
    · exact ih h
    · obtain ⟨hc, he⟩ := ih (h.add hu)
      refine ⟨hc, he.trans ?_⟩
      rw [add, Array.toList_push, List.append_assoc]
      rfl

/-- Entries that clash neither with each other nor with those that are held are all accepted. -/
theorem entries_registerAll_of_nodup (h : r.Consistent) (calls : List Entry)
    (hnames : ((r.entries.toList ++ calls).map Entry.name).Nodup)
    (hcodes : ((r.entries.toList ++ calls).map Entry.code).Nodup) :
    (registerAll calls r).2.entries.toList = r.entries.toList ++ calls := by
  induction calls generalizing r with
  | nil => exact (List.append_nil _).symm
  | cons e calls ih =>
    have hu : Unused r.entries.toList e := by
      intro x hx
      rw [List.map_append, List.map_cons, List.nodup_append] at hnames hcodes
      exact ⟨hnames.2.2 _ (List.mem_map_of_mem hx) _ List.mem_cons_self,
        hcodes.2.2 _ (List.mem_map_of_mem hx) _ List.mem_cons_self⟩
    have hadd : (r.add e).entries.toList ++ calls = r.entries.toList ++ e :: calls := by
      rw [add, Array.toList_push, List.append_assoc]
      rfl
    rw [registerAll, h.register_eq_ok_iff.mpr ⟨hu, rfl⟩]
    exact (ih (h.add hu) (hadd ▸ hnames) (hadd ▸ hcodes)).trans hadd

/-- The instruction set registers without a clash, and gives the standard registry. -/
theorem toRegistry_standard : standard.toRegistry = Registry.standard := by
  have hnames : ((Opcode.all.map Entry.ofOpcode).map Entry.name).Nodup := by decide +kernel
  have hcodes : ((Opcode.all.map Entry.ofOpcode).map Entry.code).Nodup := by decide +kernel
  have hentries := entries_registerAll_of_nodup consistent_empty (Opcode.all.map .ofOpcode)
    hnames hcodes
  rw [toRegistry, standard, hentries]
  rfl

/-- The instruction set is found alike through the indexes and in the list. -/
theorem standard_finds (code : UInt8) (token : String) :
    standard.byCode? code = Registry.standard.byCode? code ∧
    standard.lookup? token = Registry.standard.lookup? token := by
  have hc : standard.Consistent := (registerAll_spec consistent_empty _).1
  rw [← toRegistry_standard]
  exact ⟨hc.byCode?_eq code, hc.lookup?_eq token⟩

/-- **A registry stays consistent.** After any calls on a new registry it holds the entries that
were accepted, in order; no two have the same name, and no two the same byte; and its map from names
and its table of bytes lead to their places and to no others. A further call is refused exactly if
its name is taken, which is what the error then says, or else its byte, in which case the error
names the holder; a refused call leaves the registry as it was, and any other one adds its entry at
the end. A byte gives the accepted entry that has it, and so does a name; only the alias `uint`
stands for another name. -/
theorem registered_consistent (calls : List Entry) :
    let answers := (registerAll calls empty).1
    let r := (registerAll calls empty).2
    let held := accepted calls answers
    r.entries.toList = held ∧
    (held.map Entry.name).Nodup ∧ (held.map Entry.code).Nodup ∧ r.Consistent ∧
    (∀ e x r', register e r = (.error x, r') ↔ Refused held e x ∧ r' = r) ∧
    (∀ e r', register e r = (.ok (), r') ↔ Unused held e ∧ r' = r.add e) ∧
    (∀ code e, r.byCode? code = some e ↔ e ∈ held ∧ e.code = code) ∧
    (∀ name, name ≠ "uint" → ∀ e, r.lookup? name = some e ↔ e ∈ held ∧ e.name = name) ∧
    ∀ e, r.lookup? "uint" = some e ↔ e ∈ held ∧ e.name = "uint256" := by
  intro answers r held
  obtain ⟨hc, hentries⟩ : r.Consistent ∧ r.entries.toList = held :=
    registerAll_spec consistent_empty calls
  rw [← hentries]
  refine ⟨rfl, hc.names.nodup, hc.codes.nodup, hc, fun e x r' => hc.register_eq_error_iff,
    fun e r' => hc.register_eq_ok_iff, fun code e => ?_, fun name hname e => ?_, fun e => ?_⟩
  · rw [hc.byCode?_eq]
    exact find?_key_eq_some_iff hc.codes.nodup
  · rw [hc.lookup?_eq, Registry.lookup?, resolveAlias, if_neg hname]
    exact find?_key_eq_some_iff hc.names.nodup
  · rw [hc.lookup?_eq]
    exact find?_key_eq_some_iff hc.names.nodup

-- an entry under the name of the alias is held, but that name does not give it
example : (registerAll [{ Entry.ofOpcode .not with name := "uint" }] empty).2.lookup? "uint"
    = none := by
  decide

end Index

end Proviso.Registry
