import Factbase.Proofs.Diagram.Coverage
import Factbase.Proofs.Relation.Encoding
import Factbase.Tuple

/-!
# What an edge spells in slots

An edge over the variables of slots stands for a set of tuples: what its satisfying assignments
spell there. The slots may be all those of a layout or some of them, in any order.

* `number_inj`, `map_number_inj`: what is spelled determines the bits;
* `spelled`: the tuples that variables spell where a function is true;
* `Spells`: an edge whose values depend on the variables of the slots only;
* `Spells.eq_zero_iff`, `Spells.card_models`: **whether there are tuples, and how many**;
* `Spells.mem_listed`, `Spells.nodup_listed`, `Spells.lists`: **the cursor over the slots lists the
  tuples, each once, and then nothing.**
-/

namespace Factbase.Relation

open Diagram

/-! ## 1. Bits -/

section Bits

variable {ρ ρ' : Assignment}

/-- The number that is spelled determines the bits. -/
theorem number_inj {vars : List Nat} (same : number ρ vars = number ρ' vars) :
    ∀ v ∈ vars, ρ v = ρ' v := by
  induction vars with
  | nil => exact fun _ h => absurd h List.not_mem_nil
  | cons v vars ih =>
      rw [number_cons, number_cons] at same
      have hlt : number ρ vars < 2 ^ vars.length := number_lt
      have hlt' : number ρ' vars < 2 ^ vars.length := number_lt
      obtain ⟨hv, hvars⟩ : ρ v = ρ' v ∧ number ρ vars = number ρ' vars := by
        cases hb : ρ v <;> cases hb' : ρ' v <;> rw [hb, hb'] at same <;> simp at same ⊢ <;> omega
      intro w hw
      rcases List.mem_cons.mp hw with rfl | hw
      · exact hv
      · exact ih hvars w hw

variable {slots : List (List Nat)}

theorem map_number_inj (same : slots.map (number ρ) = slots.map (number ρ')) :
    ∀ v ∈ slots.flatten, ρ v = ρ' v := by
  intro v hv
  obtain ⟨vars, hvars, hv⟩ := List.mem_flatten.mp hv
  exact number_inj (List.map_inj_left.mp same vars hvars) v hv

theorem map_number_congr (same : ∀ v ∈ slots.flatten, ρ v = ρ' v) :
    slots.map (number ρ) = slots.map (number ρ') :=
  List.map_congr_left fun vars hvars => number_congr fun v hv =>
    same v (List.mem_flatten.mpr ⟨vars, hvars, hv⟩)

end Bits

/-! ## 2. Tuples -/

/-- The tuples that variables spell where a function is true. -/
def spelled (slots : List (List Nat)) (value : Assignment → Bool) : Set (List Nat) :=
  {t | ∃ σ, slots.map (number σ) = t ∧ value σ = true}

/-- An edge of a manager stands for tuples of the slots. -/
structure Spells (m : Manager) (slots : List (List Nat)) (f : Edge) : Prop where
  manager : m.WellFormed
  held : m.Holds f
  allocated : ∀ v ∈ slots.flatten, m.order.Allocated v
  narrow : ∀ vars ∈ slots, vars.length ≤ 63
  /-- No other variable matters. -/
  dependsOn : m.DependsOn slots.flatten.toFinset f

section Models

variable {m : Manager} {slots : List (List Nat)} {f : Edge} (h : Spells m slots f)

include h

/-- **The tuples are what the satisfying assignments spell.** -/
theorem Spells.spelled_eq : spelled slots (m.eval · f) =
    ↑((m.models slots.flatten.toFinset f).image fun A =>
      slots.map (number (Manager.trueOn A))) := by
  ext t
  rw [Finset.coe_image, Set.mem_image]
  constructor
  · rintro ⟨ρ, rfl, htrue⟩
    let A := slots.flatten.toFinset.filter fun v => ρ v = true
    have same : ∀ v ∈ slots.flatten.toFinset, Manager.trueOn A v = ρ v := fun v hv => by
      rw [Manager.trueOn, Bool.eq_iff_iff, decide_eq_true_iff, Finset.mem_filter]
      exact and_iff_right hv
    refine ⟨A, Finset.mem_filter.mpr ⟨Finset.mem_powerset.mpr (Finset.filter_subset _ _), ?_⟩, ?_⟩
    · rwa [h.dependsOn _ _ same]
    · exact map_number_congr fun v hv => same v (List.mem_toFinset.mpr hv)
  · rintro ⟨A, hA, rfl⟩
    exact ⟨_, rfl, (Finset.mem_filter.mp hA).2⟩

/-- **Different assignments spell different tuples.** -/
theorem Spells.card_models {S : Finset (List Nat)} (hS : spelled slots (m.eval · f) = ↑S) :
    (m.models slots.flatten.toFinset f).card = S.card := by
  have himage : S = (m.models slots.flatten.toFinset f).image fun A =>
      slots.map (number (Manager.trueOn A)) := Finset.coe_injective (hS.symm.trans h.spelled_eq)
  rw [himage, Finset.card_image_of_injOn]
  intro A hA B hB same
  have hsub : ∀ D ∈ m.models slots.flatten.toFinset f, ∀ v ∈ D, v ∈ slots.flatten.toFinset :=
    fun D hD => Finset.mem_powerset.mp (Finset.mem_filter.mp hD).1
  have hbits : ∀ v ∈ slots.flatten.toFinset, (v ∈ A ↔ v ∈ B) := fun v hv =>
    decide_eq_decide.mp (map_number_inj same v (List.mem_toFinset.mp hv))
  ext v
  exact ⟨fun hv => (hbits v (hsub A hA v hv)).mp hv, fun hv => (hbits v (hsub B hB v hv)).mpr hv⟩

/-- The edge is false exactly where there are no tuples. -/
theorem Spells.eq_zero_iff : f = .zero ↔ spelled slots (m.eval · f) = ∅ := by
  rw [Set.eq_empty_iff_forall_notMem]
  constructor
  · rintro rfl _ ⟨ρ, _, htrue⟩
    dsimp only at htrue
    rw [Manager.eval_zero] at htrue
    cases htrue
  · intro hnone
    refine h.manager.eq_of_eval_eq h.held h.manager.holds_zero fun ρ => ?_
    rw [Manager.eval_zero, Bool.eq_false_iff]
    exact fun htrue => hnone _ ⟨ρ, rfl, htrue⟩

end Models

/-! ## 3. Enumeration -/

/-- The tuple of indices as a cursor answers with it. -/
def ofIndices (t : List Nat) : Tuple := ⟨t.map Int.ofNat⟩

theorem ofIndices_injective : Function.Injective ofIndices := fun _ _ same =>
  List.map_injective_iff.mpr (fun _ _ heq => Int.ofNat.inj heq) (congrArg Tuple.items same)

theorem isDeterminate_ofIndices (t : List Nat) : (ofIndices t).isDeterminate = true :=
  List.all_eq_true.mpr fun item hitem => by
    obtain ⟨k, _, rfl⟩ := List.mem_map.mp hitem
    exact decide_eq_true (Int.natCast_nonneg k)

/-- The levels of the slots. -/
def slotLevels (m : Manager) (slots : List (List Nat)) : List (List Nat) :=
  slots.map fun vars => vars.map m.order.levelAt

/-- The tuples that a cursor over the slots lists, in order. -/
def listed (m : Manager) (slots : List (List Nat)) (f : Edge) : List (List Nat) :=
  (Cursor.assignments m (slotLevels m slots).flatten f).map fun a =>
    slots.map (number (Cursor.spread m a))

section Listing

variable {m : Manager} {slots : List (List Nat)}

theorem mem_slotLevels {l : Nat} :
    l ∈ (slotLevels m slots).flatten ↔ ∃ v ∈ slots.flatten, m.order.levelAt v = l := by
  rw [slotLevels, ← List.map_flatten, List.mem_map]

variable {f : Edge} (h : Spells m slots f)

include h

theorem Spells.slotLevels_lt : ∀ l ∈ (slotLevels m slots).flatten, l < m.numVars := by
  intro l hl
  obtain ⟨v, hv, rfl⟩ := mem_slotLevels.mp hl
  exact h.manager.order.levelAt_lt (h.allocated v hv)

/-- The edge asks for levels of the slots only. -/
theorem Spells.tests : Cursor.Tests m (slotLevels m slots).flatten f :=
  Cursor.tests_of_dependsOn h.manager
    (fun v hv => mem_slotLevels.mpr ⟨v, List.mem_toFinset.mp hv, rfl⟩) h.held h.dependsOn

theorem Spells.mem_assignments_iff {a : Array Bit} :
    a ∈ Cursor.assignments m (slotLevels m slots).flatten f ↔
      Cursor.Filled m (slotLevels m slots).flatten a ∧ m.eval (Cursor.spread m a) f = true :=
  Cursor.mem_assignments_iff h.manager.toFounded h.slotLevels_lt h.held h.tests

/-- **The tuples of the edge are listed.** -/
theorem Spells.mem_listed {t : List Nat} :
    t ∈ listed m slots f ↔ t ∈ spelled slots (m.eval · f) := by
  rw [listed, List.mem_map]
  constructor
  · rintro ⟨a, ha, rfl⟩
    exact ⟨_, rfl, (h.mem_assignments_iff.mp ha).2⟩
  · rintro ⟨ρ, rfl, htrue⟩
    have same : ∀ v ∈ slots.flatten,
        Cursor.spread m (Cursor.gather m (slotLevels m slots).flatten ρ) v = ρ v := fun v hv =>
      Cursor.spread_gather h.manager.toFounded ρ (h.allocated v hv)
        (mem_slotLevels.mpr ⟨v, hv, rfl⟩)
    refine ⟨_, h.mem_assignments_iff.mpr ⟨Cursor.filled_gather _ ρ, ?_⟩, map_number_congr same⟩
    rwa [h.dependsOn _ ρ fun v hv => same v (List.mem_toFinset.mp hv)]

/-- **No tuple is listed twice.** -/
theorem Spells.nodup_listed : (listed m slots f).Nodup := by
  refine List.Nodup.map_on (fun a ha b hb same => ?_)
    (Cursor.nodup_assignments h.manager.toFounded h.slotLevels_lt h.held h.tests)
  refine Cursor.eq_of_spread_eq h.manager.toFounded (h.mem_assignments_iff.mp ha).1
    (h.mem_assignments_iff.mp hb).1 fun v hv hlevel => ?_
  obtain ⟨w, hw, hlevels⟩ := mem_slotLevels.mp hlevel
  rw [← h.manager.order.levelAt_inj (h.allocated w hw) hv hlevels]
  exact map_number_inj same w hw

/-- There are at most as many as settings of all variables. -/
theorem Spells.length_listed_le : (listed m slots f).length ≤ Cursor.bound m := by
  rw [listed, List.length_map]
  exact Cursor.length_assignments_le h.manager.toFounded h.slotLevels_lt h.held h.tests

/-- The levels of a slot spell what its variables spell. -/
theorem Spells.itemOf_eq {a : Array Bit} (ha : Cursor.Filled m (slotLevels m slots).flatten a)
    {vars : List Nat} (hvars : vars ∈ slots) :
    Cursor.itemOf a (vars.map m.order.levelAt) = (number (Cursor.spread m a) vars : Int) := by
  have hdetermined : Cursor.determined a (vars.map m.order.levelAt) = true := by
    refine List.all_eq_true.mpr fun l hl => ?_
    obtain ⟨v, hv, rfl⟩ := List.mem_map.mp hl
    have hcare : m.order.levelAt v ∈ (slotLevels m slots).flatten :=
      mem_slotLevels.mpr ⟨v, List.mem_flatten.mpr ⟨vars, hvars, hv⟩, rfl⟩
    have hbits := ha.2 _ (h.slotLevels_lt _ hcare)
    rw [if_pos hcare] at hbits
    rcases hbits with hbit | hbit <;> rw [hbit] <;> decide
  have hspelled : Cursor.spelled a 0 (vars.map m.order.levelAt) =
      number (Cursor.spread m a) vars := by
    rw [Cursor.spelled, List.foldl_map, number]
    refine congrArg (fun f => vars.foldl f 0) (funext fun n => funext fun v => ?_)
    by_cases hbit : a[m.order.levelAt v]? = some .one
    · rw [if_pos hbit, Cursor.spread, decide_eq_true hbit]
      rfl
    · rw [if_neg hbit, Cursor.spread, decide_eq_false hbit]
      rfl
  have hlt : number (Cursor.spread m a) vars < 2 ^ vars.length := number_lt
  have hword : 2 ^ vars.length ≤ 2 ^ 63 := Nat.pow_le_pow_right Nat.two_pos (h.narrow vars hvars)
  rw [Cursor.itemOf, if_pos hdetermined, hspelled]
  refine Int.bmod_eq_of_le_mul_two ?_ ?_ <;> rw [show twoPow 64 = 2 * 2 ^ 63 by decide] <;> omega

/-- A cursor decodes an assignment of the slots' levels into the tuple that it spells. -/
theorem Spells.tupleOf_eq {a : Array Bit} (ha : Cursor.Filled m (slotLevels m slots).flatten a) :
    Cursor.tupleOf (slotLevels m slots) a = ofIndices (slots.map (number (Cursor.spread m a))) := by
  rw [Cursor.tupleOf, slotLevels, ofIndices, List.map_map, List.map_map]
  exact congrArg _ (List.map_congr_left fun vars hvars => h.itemOf_eq ha hvars)

/-- **The cursor lists the tuples and then nothing.** -/
theorem Spells.lists : Lists (Cursor.next m) ((listed m slots f).map ofIndices)
    (.overSlots m f (slotLevels m slots)) := by
  have hlists := Cursor.lists_expand (n := m.numVars)
    (c := .overSlots m f (slotLevels m slots)) (PathWalk.lists_start h.manager h.held) rfl
    (fun P hP => by
      obtain ⟨p, _, rfl⟩ := List.mem_map.mp hP
      exact PathWalk.size_profileOf)
    (fun levels hlevels l hl =>
      h.slotLevels_lt l (List.mem_flatten.mpr ⟨levels, hlevels, hl⟩)) h.slotLevels_lt
  have hsame : (listed m slots f).map ofIndices =
      (Cursor.assignments m (slotLevels m slots).flatten f).map
        (Cursor.tupleOf (slotLevels m slots)) := by
    rw [listed, List.map_map]
    exact List.map_congr_left fun a ha => (h.tupleOf_eq (h.mem_assignments_iff.mp ha).1).symm
  rw [hsame, Cursor.assignments, List.map_flatMap]
  rwa [List.flatMap_map] at hlists

end Listing

end Factbase.Relation
