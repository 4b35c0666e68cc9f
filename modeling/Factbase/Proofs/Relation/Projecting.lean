import Factbase.Proofs.Relation.Filling
import Factbase.Proofs.Relation.Narrowing

/-!
# Projections

A cursor over some slots of a relation is over the tuples without the other slots. The variables of
the others are quantified, wherever their levels lie, so that tuples which differ there only become
one. The slots may be listed in any order, and a slot may be listed twice: its variables are then
read twice and settled once.

* `onto`: the entries of a tuple in a list of slots;
* `spelled_onto`: **where the variables of the other slots no longer matter, the listed ones spell
  the entries of the tuples there**;
* `Contents.Sound.ends_projection`, `ends_tuplesOf`: the cursor is over such an edge;
* `tuplesOf_error`: a slot that the relation does not have is refused;
* `reached_projection`: **every projected tuple comes once, nothing else comes, and the relation has
  the tuples that it had.**
-/

namespace Factbase.Relation

open Diagram

/-! ## 1. Projected tuples -/

/-- The entries of a tuple in the slots, in their order. -/
def onto (slots : List Nat) (t : List Nat) : List Nat := slots.map fun slot => t[slot]?.getD 0

section Spelled

variable {l : Layout} {slots : List Nat}

/-- What variables spell in a slot is an entry of what they spell in all slots. -/
theorem onto_map_number (σ : Assignment) :
    onto slots (l.slots.map (number σ)) = (slots.map l.vars).map (number σ) := by
  rw [onto, List.map_map]
  refine List.map_congr_left fun slot _ => ?_
  rw [List.getElem?_map, Function.comp_apply, Layout.vars]
  cases l.slots[slot]? <;> rfl

/-- **Where all variables but those of the listed slots are quantified, the listed ones spell the
projected tuples.** -/
theorem spelled_onto {hidden : List Nat} {value value' : Assignment → Bool}
    (hdisjoint : ∀ v ∈ (slots.map l.vars).flatten, v ∉ hidden)
    (hvalue : ∀ ρ, value' ρ = true ↔
      ∃ σ : Assignment, (∀ v, v ∉ hidden → σ v = ρ v) ∧ value σ = true) :
    spelled (slots.map l.vars) value' = onto slots '' spelled l.slots value := by
  ext t
  constructor
  · rintro ⟨ρ, rfl, htrue⟩
    obtain ⟨σ, hoff, htrue⟩ := (hvalue ρ).mp htrue
    refine ⟨_, ⟨σ, rfl, htrue⟩, ?_⟩
    rw [onto_map_number]
    exact map_number_congr fun v hv => hoff v (hdisjoint v hv)
  · rintro ⟨_, ⟨σ, rfl, htrue⟩, rfl⟩
    exact ⟨σ, (onto_map_number σ).symm, (hvalue σ).mpr ⟨σ, fun _ _ => rfl, htrue⟩⟩

/-- The slots that are not listed. -/
def Layout.hidden (l : Layout) (slots : List Nat) : List Nat :=
  (List.range l.arity).filter fun slot => !slots.contains slot

theorem Layout.hidden_sublist : (l.hidden slots).Sublist (List.range l.arity) :=
  List.filter_sublist

/-- A variable is one of the listed slots or one of the others. -/
theorem Layout.listed_or_hidden {v : Nat} (hv : v ∈ l.slots.flatten) :
    v ∈ (slots.map l.vars).flatten ∨ v ∈ (l.hidden slots).flatMap l.vars := by
  rw [← map_vars, ← List.flatMap_def] at hv
  obtain ⟨slot, hslot, hv⟩ := List.mem_flatMap.mp hv
  by_cases hlisted : slot ∈ slots
  · exact .inl (List.mem_flatten.mpr ⟨_, List.mem_map_of_mem hlisted, hv⟩)
  · refine .inr (List.mem_flatMap.mpr ⟨slot, List.mem_filter.mpr ⟨hslot, ?_⟩, hv⟩)
    simpa using hlisted

/-- **It is not both.** -/
theorem Layout.not_hidden (hslots : ∀ slot ∈ slots, slot < l.arity)
    (hnodup : l.slots.flatten.Nodup) {v : Nat} (hv : v ∈ (slots.map l.vars).flatten) :
    v ∉ (l.hidden slots).flatMap l.vars := by
  -- the slots of the relation are the listed ones, in their order, and the others
  have hperm := (List.filter_append_perm slots.contains (List.range l.arity)).map l.vars
  rw [map_vars, List.map_append] at hperm
  have hboth := hperm.flatten.nodup_iff.mpr hnodup
  rw [List.flatten_append] at hboth
  rw [List.mem_flatten] at hv
  obtain ⟨vars, hvars, hv⟩ := hv
  obtain ⟨slot, hslot, rfl⟩ := List.mem_map.mp hvars
  rw [List.flatMap_def]
  refine List.disjoint_of_nodup_append hboth (List.mem_flatten.mpr ⟨_, ?_, hv⟩)
  refine List.mem_map_of_mem (List.mem_filter.mpr ⟨List.mem_range.mpr (hslots slot hslot), ?_⟩)
  simpa using hslot

end Spelled

/-! ## 2. Cursors over slots -/

/-- The cursor is over an edge that stands for the projected tuples. -/
def Projects (slots : List Nat) (tuples : Set (List Nat)) (cursor : Cursor) (c : Contents) : Prop :=
  ∃ f, Spells c.manager (slots.map c.layout.vars) f ∧
    spelled (slots.map c.layout.vars) (c.manager.eval · f) = onto slots '' tuples ∧
    cursor = .overSlots c.manager f (slotLevels c.manager (slots.map c.layout.vars))

section Sound

variable {schema : Schema} {c : Contents} (hc : c.Sound schema) {slots : List Nat}
  (hslots : ∀ slot ∈ slots, slot < c.layout.arity)

include hc hslots

/-- The variables of some slots belong to the layout. -/
theorem Contents.Sound.spells_slots {f : Edge} (hf : c.manager.Holds f)
    (hd : c.manager.DependsOn (slots.map c.layout.vars).flatten.toFinset f) :
    Spells c.manager (slots.map c.layout.vars) f where
  manager := hc.manager
  held := hf
  allocated v hv := by
    obtain ⟨vars, hvars, hv⟩ := List.mem_flatten.mp hv
    obtain ⟨slot, hslot, rfl⟩ := List.mem_map.mp hvars
    exact hc.layout.mem_flatten.mp ((sublist_flatten (hslots slot hslot)).subset hv)
  narrow vars hvars := by
    obtain ⟨slot, hslot, rfl⟩ := List.mem_map.mp hvars
    refine hc.layout.length_le ?_
    rw [← map_vars]
    exact List.mem_map_of_mem (List.mem_range.mpr (hslots slot hslot))
  dependsOn := hd

/-- **The cursor over slots is over the projection onto them.** -/
theorem Contents.Sound.ends_projection : Ends (do
      let hidden := (List.range c.layout.arity).filter fun slot => !slots.contains slot
      let vars ← Manager.varCube (hidden.flatMap c.layout.vars)
      let f ← Manager.project c.root vars
      Manager.ask fun m => do
        return .overSlots m f (← slots.mapM (c.layout.levels m))) c.manager
      fun cursor m => c.manager.Next m ∧
        Projects slots c.tuples cursor { c with manager := m } := by
  have hvars : ((c.layout.hidden slots).flatMap c.layout.vars).Sublist c.layout.slots.flatten :=
    vars_sublist Layout.hidden_sublist
  have hset := Manager.ends_varCube hc.manager (fun v hv => hc.layout.mem_flatten.mp
    (hvars.subset hv)) (hvars.nodup hc.layout.nodup)
  refine hset.bind fun set m₁ ⟨n₁, vs, hperm, hvs⟩ => ?_
  refine Ends.bind (Manager.makes_project n₁.1 (n₁.holds hc.root) hvs) fun f m₂ ⟨n₂, hf, hval⟩ => ?_
  have n := n₁.trans n₂
  have hnext := hc.next n (n.holds hc.root)
  have hvalue : ∀ ρ, m₂.eval ρ f = true ↔ c.manager.Somewhere vs ρ c.root := fun ρ =>
    (Manager.anywhere_eq_eval_iff.mp (hval ρ)).trans
      (exists_congr fun σ => by rw [n₁.eval_eq hc.manager hc.root])
  refine ⟨_, m₂, Manager.ask_eq (bind_eq_ok (hnext.levels_eq hslots) rfl), n, f, ?_, ?_, rfl⟩
  · refine hnext.spells_slots hslots hf (dependsOn_somewhere hc.dependsOn hvalue fun v hv => ?_)
    rw [hperm.mem_iff, List.mem_toFinset]
    exact (Layout.listed_or_hidden (List.mem_toFinset.mp hv)).symm
  · refine spelled_onto (fun v hv => ?_) hvalue
    rw [hperm.mem_iff]
    exact Layout.not_hidden hslots hc.layout.nodup hv

end Sound

section Opened

variable {r : Relation} {schema : Schema} {c : Contents} (hopen : r.stage = .opened schema c)
  {slots : List Nat}

include hopen

/-- **Slots of the relation have a cursor over them.** -/
theorem ends_tuplesOf (hc : c.Sound schema) (hslots : ∀ slot ∈ slots, slot < c.layout.arity) :
    Ends (tuplesOf slots) r fun cursor => Lent r schema c (Projects slots c.tuples cursor) := by
  have hfind : slots.find? (c.layout.arity ≤ ·) = none :=
    List.find?_eq_none.mpr fun slot hslot => by simpa using hslots slot hslot
  unfold tuplesOf
  refine ends_bind (opening_eq hopen) ?_
  dsimp only
  rw [hfind]
  refine Ends.mono (ends_onManager hopen (hc.ends_projection hslots)) fun cursor r' hrun => ?_
  obtain ⟨m, hr', n, hprojects⟩ := hrun
  exact ⟨m, n, hr', hprojects⟩

/-- Any other slot is refused. -/
theorem tuplesOf_error (hslots : ¬ ∀ slot ∈ slots, slot < c.layout.arity) :
    ∃ e, tuplesOf slots r = .error e r := by
  unfold tuplesOf
  rw [bind_of_ok (opening_eq hopen)]
  dsimp only
  cases hfind : slots.find? (c.layout.arity ≤ ·) with
  | some slot => exact ⟨_, rfl⟩
  | none =>
      refine absurd (fun slot hslot => ?_) hslots
      simpa using List.find?_eq_none.mp hfind slot hslot

end Opened

/-! ## 3. Main result -/

/-- **Projection is complete, exact and without duplicates.** A cursor over slots of an open
relation that is reached, whatever their order and however often they are listed, answers with the
entries of every tuple in these slots once, with nothing else, and then with none. Over no slots the
empty tuple comes where there is a tuple at all. The relation has the tuples that it had. -/
theorem reached_projection {r : Relation} (h : Reached r) {schema : Schema} {c : Contents}
    (hopen : r.stage = .opened schema c) {slots : List Nat}
    (hslots : ∀ slot ∈ slots, slot < schema.signature.arity) :
    ∃ (cursor : Cursor) (ts : List Tuple) (c' : Contents),
      tuplesOf slots r = .ok cursor (r.withContents schema c') ∧
      (∀ n, nthTuple n cursor (r.withContents schema c') = .ok ts[n]? (r.withContents schema c')) ∧
      ts.Nodup ∧ (∀ t, t ∈ ts ↔ ∃ indices ∈ c.tuples, t = ofIndices (onto slots indices)) ∧
      (ts = [] ↔ c.tuples = ∅) ∧ (slots = [] → c.tuples.Nonempty → ts = [ofIndices []]) ∧
      c'.root = c.root ∧ c'.layout = c.layout ∧ c'.tuples = c.tuples := by
  have hc := h.contents hopen
  rw [← (h.sound.contents hopen).1, ← hc.arity_eq] at hslots
  obtain ⟨_, _, run, m, n, rfl, f, hspells, htuples, rfl⟩ := ends_tuplesOf hopen hc hslots
  have hmem : ∀ t, t ∈ (listed m (slots.map c.layout.vars) f).map ofIndices ↔
      ∃ indices ∈ c.tuples, t = ofIndices (onto slots indices) := by
    intro t
    rw [List.mem_map]
    constructor
    · rintro ⟨entries, hentries, rfl⟩
      obtain ⟨indices, hindices, rfl⟩ := htuples ▸ hspells.mem_listed.mp hentries
      exact ⟨indices, hindices, rfl⟩
    · rintro ⟨indices, hindices, rfl⟩
      exact ⟨_, hspells.mem_listed.mpr (htuples ▸ Set.mem_image_of_mem _ hindices), rfl⟩
  have hnodup := hspells.nodup_listed.map ofIndices_injective
  generalize hlisted : (listed m (slots.map c.layout.vars) f).map ofIndices = ts at hmem hnodup
  refine ⟨_, ts, _, run, hlisted ▸ nthTuple_eq rfl hspells.lists, hnodup, hmem, ?_, ?_, rfl, rfl,
    hc.tuples_next n⟩
  · rw [List.eq_nil_iff_forall_not_mem, Set.eq_empty_iff_forall_notMem]
    exact ⟨fun hnone indices hindices => hnone _ ((hmem _).mpr ⟨indices, hindices, rfl⟩),
      fun hnone t ht => by
        obtain ⟨indices, hindices, _⟩ := (hmem t).mp ht
        exact hnone indices hindices⟩
  · rintro rfl ⟨indices, hindices⟩
    refine List.perm_singleton.mp ((List.perm_ext_iff_of_nodup hnodup (List.nodup_singleton _)).mpr
      fun t => ?_)
    rw [hmem, List.mem_singleton]
    exact ⟨fun ⟨_, _, ht⟩ => ht, fun ht => ⟨indices, hindices, ht⟩⟩

/-- Two of three tuples become one, in slots that are repeated and swapped, the bits of which are
interleaved. -/
theorem reached_projection_repeated : ∃ r schema c, Reached r ∧ r.stage = .opened schema c ∧
    schema.signature.groups = [[0, 2], [1]] ∧ c.tuples = {[0, 1, 1], [0, 0, 1], [1, 0, 0]} ∧
    (∀ slot ∈ [2, 0, 2], slot < schema.signature.arity) ∧
    ∃ (cursor : Cursor) (ts : List Tuple) (r' : Relation), tuplesOf [2, 0, 2] r = .ok cursor r' ∧
      (∀ n, nthTuple n cursor r' = .ok ts[n]? r') ∧ ts.Nodup ∧
      ∀ t, t ∈ ts ↔ t = ofIndices [1, 0, 1] ∨ t = ofIndices [0, 1, 0] := by
  let cat : Catalog := ⟨#[.words ⟨"V", fun n => s!"{n}", ⟨#[7, 9], ∅⟩⟩]⟩
  let schema : Schema :=
    ⟨"own", ⟨["V0", "V1", "V2"], some "V0xV2_V1", [[0, 2], [1]]⟩, [0, 0, 0]⟩
  have hcreated : schema.signature.Created := ⟨["V0", "V1", "V2"], some "V0xV2_V1", rfl⟩
  let written : List (List Nat) := [[0, 1, 1], [0, 0, 1], [1, 0, 0]]
  obtain ⟨r, c, hr, hopen, _, htuples⟩ :=
    exists_holding cat schema true rfl hcreated rfl rfl (by decide) written (by decide)
  have hset : c.tuples = {[0, 1, 1], [0, 0, 1], [1, 0, 0]} := by
    rw [htuples]
    ext t
    simp [written]
  have hslots : ∀ slot ∈ [2, 0, 2], slot < schema.signature.arity := by decide
  obtain ⟨cursor, ts, c', run, hcalls, hnodup, hmem, _⟩ := reached_projection hr hopen hslots
  refine ⟨r, schema, c, hr, hopen, rfl, hset, hslots, cursor, ts, _, run, hcalls, hnodup,
    fun t => ?_⟩
  rw [hmem, hset]
  simp [onto]

end Factbase.Relation
