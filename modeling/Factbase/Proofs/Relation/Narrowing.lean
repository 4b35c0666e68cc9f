import Factbase.Proofs.Relation.Enumerating

/-!
# Narrowing views

A view stands for an excerpt of its relation: some of the slots, and tuples over them.

* `Excerpt.select`, `Excerpt.delete`: selection and projection of excerpts;
* `spelled_select`, `spelled_delete`: what they are on the tuples that an edge stands for;
* `View.StandsFor`: the view stands for an excerpt, and its edge depends on the variables of the
  excerpt's slots only;
* `View.StandsFor.next`: **so it does however the manager grows**;
* `View.ends_selectIndex`, `View.ends_delete`, `View.ends_selectIndexAndDelete`: **the calls on a
  view select and project its excerpt**;
* `View.selectIndex_error`, `View.delete_error`, `View.selectIndexAndDelete_error`: any other call
  is refused and changes nothing.
-/

namespace Factbase.Relation

open Diagram

/-! ## 1. Excerpts -/

/-- Some slots of a relation and tuples over them. -/
structure Excerpt where
  slots : List Nat
  tuples : Set (List Nat)

namespace Excerpt

/-- The tuples with an index in a slot. -/
def select (x : Excerpt) (slot index : Nat) : Excerpt :=
  ⟨x.slots, {t ∈ x.tuples | t[x.slots.idxOf slot]? = some index}⟩

/-- The tuples without a slot. -/
def delete (x : Excerpt) (slot : Nat) : Excerpt :=
  ⟨x.slots.erase slot, (·.eraseIdx (x.slots.idxOf slot)) '' x.tuples⟩

/-- The variables of the slots, slot by slot. -/
def blocks (x : Excerpt) (l : Layout) : List (List Nat) := x.slots.map l.vars

theorem getElem?_blocks {x : Excerpt} {slot : Nat} (hslot : slot ∈ x.slots) (l : Layout) :
    (x.blocks l)[x.slots.idxOf slot]? = some (l.vars slot) := by
  rw [blocks, List.getElem?_map, List.getElem?_eq_getElem (List.idxOf_lt_length_of_mem hslot),
    List.getElem_idxOf]
  rfl

theorem blocks_delete (x : Excerpt) (slot : Nat) (l : Layout) :
    (x.delete slot).blocks l = (x.blocks l).eraseIdx (x.slots.idxOf slot) := by
  rw [blocks, blocks, List.eraseIdx_map, delete, List.erase_eq_eraseIdx_of_idxOf rfl]

end Excerpt

section Spelled

variable {blocks : List (List Nat)} {i : Nat} {vars : List Nat} (hget : blocks[i]? = some vars)
  {value value' : Assignment → Bool}

include hget

/-- A condition on the variables of one block is one on its place in the tuples. -/
theorem spelled_select {index : Nat}
    (hvalue : ∀ ρ, value' ρ = (value ρ && decide (number ρ vars = index))) :
    spelled blocks value' = {t ∈ spelled blocks value | t[i]? = some index} := by
  have hplace : ∀ ρ, (blocks.map (number ρ))[i]? = some index ↔ number ρ vars = index := fun ρ => by
    rw [List.getElem?_map, hget, Option.map_some, Option.some.injEq]
  ext t
  constructor
  · rintro ⟨ρ, rfl, htrue⟩
    rw [hvalue, Bool.and_eq_true, decide_eq_true_iff] at htrue
    exact ⟨⟨ρ, rfl, htrue.1⟩, (hplace ρ).mpr htrue.2⟩
  · rintro ⟨⟨ρ, rfl, htrue⟩, hindex⟩
    refine ⟨ρ, rfl, ?_⟩
    rw [hvalue, htrue, decide_eq_true ((hplace ρ).mp hindex)]
    rfl

/-- The variables of one block and of the others. -/
theorem flatten_perm_of_getElem? : blocks.flatten.Perm (vars ++ (blocks.eraseIdx i).flatten) := by
  obtain ⟨hi, rfl⟩ := List.getElem?_eq_some_iff.mp hget
  exact (List.getElem_cons_eraseIdx_perm hi).symm.flatten

/-- Where the variables of a block no longer matter, its place in the tuples is erased. -/
theorem spelled_delete (hnodup : blocks.flatten.Nodup) (hvalue : ∀ ρ, value' ρ = true ↔
      ∃ σ : Assignment, (∀ v, v ∉ vars → σ v = ρ v) ∧ value σ = true) :
    spelled (blocks.eraseIdx i) value' = (·.eraseIdx i) '' spelled blocks value := by
  have hdisjoint := (List.nodup_append.mp ((flatten_perm_of_getElem? hget).nodup_iff.mp hnodup)).2.2
  ext t
  constructor
  · rintro ⟨ρ, rfl, htrue⟩
    obtain ⟨σ, hoff, htrue⟩ := (hvalue ρ).mp htrue
    refine ⟨_, ⟨σ, rfl, htrue⟩, ?_⟩
    dsimp only
    rw [List.eraseIdx_map]
    exact map_number_congr fun v hv => hoff v fun hmem => hdisjoint v hmem v hv rfl
  · rintro ⟨_, ⟨σ, rfl, htrue⟩, rfl⟩
    dsimp only
    rw [List.eraseIdx_map]
    exact ⟨σ, rfl, (hvalue σ).mpr ⟨σ, fun _ _ => rfl, htrue⟩⟩

end Spelled

/-- An edge that is true where another one is for some values of variables depends on the others. -/
theorem dependsOn_somewhere {m m' : Manager} {f g : Edge} {V W : Finset Nat} {vs : List Nat}
    (hd : m.DependsOn V f) (hvalue : ∀ ρ, m'.eval ρ g = true ↔ m.Somewhere vs ρ f)
    (hcover : ∀ v ∈ V, v ∈ vs ∨ v ∈ W) : m'.DependsOn W g := by
  -- the quantified variables may be taken from either side
  have hmono : ∀ ρ ρ' : Assignment, (∀ v ∈ W, ρ v = ρ' v) →
      m'.eval ρ g = true → m'.eval ρ' g = true := by
    intro ρ ρ' agree htrue
    obtain ⟨σ, hoff, htrue⟩ := (hvalue ρ).mp htrue
    refine (hvalue ρ').mpr ⟨fun v => if v ∈ vs then σ v else ρ' v, fun v hv => if_neg hv, ?_⟩
    rw [← htrue]
    refine hd _ _ fun v hv => ?_
    by_cases hmem : v ∈ vs
    · exact if_pos hmem
    · rw [if_neg hmem, hoff v hmem, agree v ((hcover v hv).resolve_left hmem)]
  exact fun ρ ρ' agree => Bool.eq_iff_iff.mpr
    ⟨hmono ρ ρ' agree, hmono ρ' ρ fun v hv => (agree v hv).symm⟩

/-! ## 2. Views of excerpts -/

namespace View

theorem mem_slots {v : View} {slot : Nat} : slot ∈ v.slots ↔ v.visible[slot]? = some true := by
  simp only [slots, List.mem_filter, List.mem_range]
  constructor
  · rintro ⟨hlt, hvisible⟩
    simpa [hlt] using hvisible
  · intro hvisible
    exact ⟨(List.getElem?_eq_some_iff.mp hvisible).1, by simp [hvisible]⟩

theorem nodup_slots (v : View) : v.slots.Nodup := List.nodup_range.filter _

theorem slots_replicate (root : Edge) (n : Nat) :
    slots ⟨root, List.replicate n true⟩ = List.range n := by
  rw [slots, List.length_replicate, List.filter_eq_self]
  intro slot hslot
  simp [List.mem_range.mp hslot]

theorem slots_set (v : View) (root : Edge) (slot : Nat) :
    slots ⟨root, v.visible.set slot false⟩ = v.slots.erase slot := by
  rw [v.nodup_slots.erase_eq_filter, slots, slots, List.filter_filter, List.length_set]
  refine List.filter_congr fun other hother => ?_
  have hlt := List.mem_range.mp hother
  by_cases heq : slot = other
  · subst heq
    simp [hlt]
  · simp [heq, Ne.symm heq]

/-- The view of an open relation stands for an excerpt of it. -/
structure StandsFor (v : View) (c : Contents) (x : Excerpt) : Prop where
  held : c.manager.Holds v.root
  arity : v.visible.length = c.layout.arity
  slots : v.slots = x.slots
  /-- Deleted slots do not matter. -/
  dependsOn : c.manager.DependsOn (x.blocks c.layout).flatten.toFinset v.root
  tuples : spelled (x.blocks c.layout) (c.manager.eval · v.root) = x.tuples

section StandsFor

variable {v : View} {schema : Schema} {c : Contents} {x : Excerpt}

/-- The view of all tuples. -/
theorem standsFor_whole (hc : c.Sound schema) :
    StandsFor ⟨c.root, List.replicate c.layout.arity true⟩ c
      ⟨List.range c.layout.arity, c.tuples⟩ where
  held := hc.root
  arity := List.length_replicate
  slots := slots_replicate _ _
  dependsOn := by
    rw [Excerpt.blocks, map_vars]
    exact hc.dependsOn
  tuples := by
    rw [Excerpt.blocks, map_vars]
    rfl

variable (h : v.StandsFor c x)

include h

theorem StandsFor.sublist : x.slots.Sublist (List.range c.layout.arity) := by
  rw [← h.slots, ← h.arity]
  exact List.filter_sublist

theorem StandsFor.flatten_sublist : (x.blocks c.layout).flatten.Sublist c.layout.slots.flatten := by
  rw [Excerpt.blocks, ← List.flatMap_def]
  exact vars_sublist h.sublist

theorem StandsFor.subset_variables : (x.blocks c.layout).flatten.toFinset ⊆ c.layout.variables :=
  fun _ hv => List.mem_toFinset.mpr (h.flatten_sublist.subset (List.mem_toFinset.mp hv))

/-- **The edge of a view stands for the tuples of the excerpt.** -/
theorem StandsFor.spells (hc : c.Sound schema) : Spells c.manager (x.blocks c.layout) v.root where
  manager := hc.manager
  held := h.held
  allocated _ hv := hc.layout.mem_flatten.mp (h.flatten_sublist.subset hv)
  narrow vars hvars := by
    obtain ⟨slot, hslot, rfl⟩ := List.mem_map.mp hvars
    refine hc.layout.length_le ?_
    rw [← map_vars]
    exact List.mem_map_of_mem (h.sublist.subset hslot)
  dependsOn := h.dependsOn

theorem StandsFor.length_eq {t : List Nat} (ht : t ∈ x.tuples) : t.length = x.slots.length := by
  rw [← h.tuples] at ht
  obtain ⟨ρ, rfl, _⟩ := ht
  rw [List.length_map, Excerpt.blocks, List.length_map]

/-- **A view stands for the same excerpt however the manager grows.** -/
theorem StandsFor.next (hc : c.Sound schema) {m : Manager} (n : c.manager.Next m) :
    v.StandsFor { c with manager := m } x where
  held := n.holds h.held
  arity := h.arity
  slots := h.slots
  dependsOn ρ ρ' agree := by
    rw [n.eval_eq hc.manager h.held, n.eval_eq hc.manager h.held]
    exact h.dependsOn ρ ρ' agree
  tuples := by
    simp only [n.eval_eq hc.manager h.held]
    exact h.tuples

variable {slot : Nat} (hslot : slot ∈ x.slots) {root : Edge} (held : c.manager.Holds root)

include hslot held

/-- **The conjunction with the bits of an index is the selection.** -/
theorem StandsFor.select {index : Nat} (value : ∀ ρ, c.manager.eval ρ root =
      (c.manager.eval ρ v.root && decide (number ρ (c.layout.vars slot) = index))) :
    StandsFor ⟨root, v.visible⟩ c (x.select slot index) where
  held := held
  arity := h.arity
  slots := h.slots
  dependsOn ρ ρ' agree := by
    have hvars : ∀ v ∈ c.layout.vars slot, ρ v = ρ' v := fun v hv =>
      agree v (List.mem_toFinset.mpr (List.mem_flatten.mpr ⟨_, List.mem_map_of_mem hslot, hv⟩))
    rw [value, value, h.dependsOn ρ ρ' agree, number_congr hvars]
  tuples := by
    rw [Excerpt.select, ← h.tuples]
    exact spelled_select (Excerpt.getElem?_blocks hslot c.layout) value

/-- **Quantification over the variables of a slot is the projection.** -/
theorem StandsFor.delete (hc : c.Sound schema) (value : ∀ ρ, c.manager.eval ρ root = true ↔
      ∃ σ : Assignment, (∀ w, w ∉ c.layout.vars slot → σ w = ρ w) ∧
        c.manager.eval σ v.root = true) :
    StandsFor ⟨root, v.visible.set slot false⟩ c (x.delete slot) where
  held := held
  arity := List.length_set.trans h.arity
  slots := by rw [slots_set, h.slots, Excerpt.delete]
  dependsOn := by
    have hperm := flatten_perm_of_getElem? (Excerpt.getElem?_blocks hslot c.layout)
    rw [← Excerpt.blocks_delete] at hperm
    refine dependsOn_somewhere h.dependsOn value fun v hv => ?_
    rw [List.mem_toFinset] at hv ⊢
    exact List.mem_append.mp (hperm.subset hv)
  tuples := by
    rw [Excerpt.blocks_delete, Excerpt.delete, ← h.tuples]
    exact spelled_delete (Excerpt.getElem?_blocks hslot c.layout)
      (h.flatten_sublist.nodup hc.layout.nodup) value

end StandsFor

end View

/-! ## 3. Calls on views -/

/-- The relation has lent space in its manager and is the same in everything else. -/
def Lent (r : Relation) (schema : Schema) (c : Contents) (post : Contents → Prop)
    (r' : Relation) : Prop :=
  ∃ m, c.manager.Next m ∧ r' = r.withContents schema { c with manager := m } ∧
    post { c with manager := m }

section Lent

variable {r r' r'' : Relation} {schema : Schema} {c : Contents} {post post' : Contents → Prop}

theorem lent_refl (hopen : r.stage = .opened schema c) (hc : c.Sound schema) (h : post c) :
    Lent r schema c post r := by
  obtain ⟨config, stage⟩ := r
  obtain rfl : stage = .opened schema c := hopen
  exact ⟨c.manager, .refl hc.manager, rfl, h⟩

/-- Space may be lent again, to the relation with the manager that has grown. -/
theorem Lent.bind (h : Lent r schema c post r') (hnext : ∀ m, c.manager.Next m →
      r'.stage = .opened schema { c with manager := m } → post { c with manager := m } →
      Lent r' schema { c with manager := m } post' r'') : Lent r schema c post' r'' := by
  obtain ⟨m, n, rfl, hpost⟩ := h
  obtain ⟨m', n', hr'', hpost'⟩ := hnext m n rfl hpost
  exact ⟨m', n.trans n', hr'', hpost'⟩

end Lent

namespace View

section Refused

variable {r : Relation} {v : View} {slot : Nat}

theorem requireSlot_eq (hslot : slot ∈ v.slots) : v.requireSlot slot r = .ok () r := by
  unfold requireSlot
  rw [mem_slots.mp hslot]
  rfl

theorem requireSlot_error (hslot : slot ∉ v.slots) : ∃ e, v.requireSlot slot r = .error e r := by
  rw [mem_slots] at hslot
  unfold requireSlot
  cases hget : v.visible[slot]? with
  | none => exact ⟨_, rfl⟩
  | some visible =>
      cases visible with
      | false => exact ⟨_, rfl⟩
      | true => exact absurd hget hslot

theorem delete_error (hslot : slot ∉ v.slots) : ∃ e, v.delete slot r = .error e r := by
  obtain ⟨e, hrefused⟩ := requireSlot_error (r := r) hslot
  exact ⟨e, bind_eq_error hrefused⟩

variable {cat : Catalog} {schema : Schema} {c : Contents} {index : Nat}

theorem selectIndex_error (hopen : r.stage = .opened schema c)
    (h : ¬ (slot ∈ v.slots ∧ InSlot cat schema c.layout slot index)) :
    ∃ e, v.selectIndex cat slot index r = .error e r := by
  unfold selectIndex
  by_cases hslot : slot ∈ v.slots
  · obtain ⟨problem, hrefused⟩ := checkSlot_error fun hindex => h ⟨hslot, hindex⟩
    rw [bind_of_ok (requireSlot_eq hslot), bind_of_ok (opening_eq hopen)]
    exact ⟨_, bind_eq_error (orProblem_eq_error hrefused)⟩
  · obtain ⟨e, hrefused⟩ := requireSlot_error (r := r) hslot
    exact ⟨e, bind_eq_error hrefused⟩

theorem selectIndexAndDelete_error (hopen : r.stage = .opened schema c)
    (h : ¬ (slot ∈ v.slots ∧ InSlot cat schema c.layout slot index)) :
    ∃ e, v.selectIndexAndDelete cat slot index r = .error e r := by
  obtain ⟨e, hrefused⟩ := selectIndex_error hopen h
  exact ⟨e, bind_eq_error hrefused⟩

end Refused

section Calls

variable {r : Relation} {schema : Schema} {c : Contents} (hopen : r.stage = .opened schema c)
  (hc : c.Sound schema) {v : View} {x : Excerpt} (h : v.StandsFor c x) {slot : Nat}
  (hslot : slot ∈ x.slots)

include hopen hc h hslot

theorem ends_selectIndex {cat : Catalog} {index : Nat}
    (hindex : InSlot cat schema c.layout slot index) :
    Ends (v.selectIndex cat slot index) r fun v' =>
      Lent r schema c fun c' => v'.StandsFor c' (x.select slot index) := by
  have hcube := hc.layout.makes_slotCube hc.manager (List.mem_range.mp (h.sublist.subset hslot))
    hindex.2
  have hmake : Manager.Makes (do
      Manager.conj v.root (← Manager.cube (c.layout.literals slot index))) c.manager fun ρ =>
        c.manager.eval ρ v.root && decide (number ρ (c.layout.vars slot) = index) :=
    hcube.bind fun cube m n hheld hval =>
      (Manager.makes_conj n.1 (n.holds h.held) hheld).congr fun ρ => by
        rw [hval, n.eval_eq hc.manager h.held]
  unfold selectIndex
  refine ends_bind (requireSlot_eq (h.slots ▸ hslot)) (ends_bind (opening_eq hopen) ?_)
  refine ends_bind (orProblem_eq_ok (checkSlot_eq hindex)) ?_
  refine Ends.bind (ends_onManager hopen hmake) fun root r' ⟨m, hr', n, held, value⟩ => ?_
  refine ends_pure ⟨m, n, hr', (h.next hc n).select hslot held fun ρ => ?_⟩
  exact (value ρ).trans (by rw [n.eval_eq hc.manager h.held])

theorem ends_delete : Ends (v.delete slot) r fun v' =>
    Lent r schema c fun c' => v'.StandsFor c' (x.delete slot) := by
  obtain ⟨vs, hperm, hset⟩ := hc.layout.isVarSet (List.mem_range.mp (h.sublist.subset hslot))
  have hmake := Manager.makes_project hc.manager h.held hset
  unfold delete
  refine ends_bind (requireSlot_eq (h.slots ▸ hslot)) ?_
  refine Ends.bind (ends_onManager hopen hmake) fun root r' ⟨m, hr', n, held, value⟩ => ?_
  have hnext := hc.next n (n.holds hc.root)
  refine ends_pure ⟨m, n, hr', (h.next hc n).delete hslot held hnext fun ρ => ?_⟩
  refine (Manager.anywhere_eq_eval_iff.mp (value ρ)).trans (exists_congr fun σ => ?_)
  rw [n.eval_eq hc.manager h.held]
  exact and_congr_left fun _ => forall_congr' fun v => by rw [hperm.mem_iff]

theorem ends_selectIndexAndDelete {cat : Catalog} {index : Nat}
    (hindex : InSlot cat schema c.layout slot index) :
    Ends (v.selectIndexAndDelete cat slot index) r fun v' =>
      Lent r schema c fun c' => v'.StandsFor c' ((x.select slot index).delete slot) := by
  refine (ends_selectIndex hopen hc h hslot hindex).bind fun v' r' ⟨m, n, hr', h'⟩ => ?_
  subst hr'
  exact (ends_delete rfl (hc.next n (n.holds hc.root)) h' hslot).mono
    fun v'' r'' ⟨m', n', hr'', h''⟩ => ⟨m', n.trans n', hr'', h''⟩

end Calls

end View

end Factbase.Relation
