import Factbase.Proofs.Diagram.Codec
import Factbase.Proofs.Relation.Cardinality

/-!
# Tuples carried over to other variables

Two lists of variables that stand for each other, one by one, spell the same numbers, so that a
diagram that is read with other variables has the tuples that it was written with.

* `number_eq_of_map`, `map_number_eq_of_map`: what is spelled depends on the bits alone;
* `map_carried`: **the writer's variables have the bits of the reader's**;
* `Contents.Sound.read_mem_iff`: an open relation has the tuples that are spelled where its diagram
  is true;
* `Layout.Sound.spelled_eq`: **every set of tuples that fit is what a diagram with its tuples
  spells.**
-/

namespace Factbase.Relation

open Diagram

/-! ## 1. Bits -/

section Bits

variable {ρ σ : Assignment}

/-- The number that is spelled depends on the bits alone. -/
theorem number_eq_of_map : ∀ {vars ws : List Nat}, vars.map ρ = ws.map σ →
    number ρ vars = number σ ws
  | [], [], _ => rfl
  | [], _ :: _, h => by cases h
  | _ :: _, [], h => by cases h
  | v :: vars, w :: ws, h => by
      obtain ⟨hv, hvars⟩ := List.cons.inj h
      have hlen := congrArg List.length hvars
      rw [List.length_map, List.length_map] at hlen
      rw [number_cons, number_cons, hv, number_eq_of_map hvars, hlen]

/-- So does the list of numbers, where the blocks are of the same widths. -/
theorem map_number_eq_of_map : ∀ {slots blocks : List (List Nat)},
    slots.map List.length = blocks.map List.length → slots.flatten.map ρ = blocks.flatten.map σ →
    slots.map (number ρ) = blocks.map (number σ)
  | [], [], _, _ => rfl
  | [], _ :: _, h, _ => by cases h
  | _ :: _, [], h, _ => by cases h
  | vars :: slots, ws :: blocks, hwidths, hbits => by
      obtain ⟨hlen, hwidths⟩ := List.cons.inj hwidths
      rw [List.flatten_cons, List.flatten_cons, List.map_append, List.map_append] at hbits
      obtain ⟨hvars, hrest⟩ := List.append_inj hbits (by rwa [List.length_map, List.length_map])
      rw [List.map_cons, List.map_cons, number_eq_of_map hvars, map_number_eq_of_map hwidths hrest]

end Bits

/-! ## 2. Maps between variables -/

section Maps

variable {old new : List Nat} (hnodup : old.Nodup) (hlen : old.length = new.length)

include hnodup hlen

/-- A list of different variables is mapped one by one. -/
theorem getElem?_ofList_zip {v w : Nat} (h : (v, w) ∈ old.zip new) :
    (Std.HashMap.ofList (old.zip new))[v]? = some w := by
  refine Std.HashMap.getElem?_ofList_of_mem (beq_self_eq_true v) ?_ h
  have hkeys : ((old.zip new).map Prod.fst).Nodup := by
    rwa [List.map_fst_zip (Nat.le_of_eq hlen)]
  exact (List.pairwise_map.mp hkeys).imp fun hne => beq_eq_false_iff_ne.mpr hne

/-- **The writer's variables have the bits of the reader's.** -/
theorem map_carried (ρ : Assignment) :
    old.map (Body.carried ((Std.HashMap.ofList (old.zip new))[·]?) ρ) = new.map ρ := by
  refine List.ext_getElem (by simpa using hlen) fun i hi hi' => ?_
  rw [List.length_map] at hi hi'
  have hmem : (old[i], new[i]) ∈ old.zip new :=
    List.mem_iff_getElem.mpr ⟨i, by rw [List.length_zip]; omega, List.getElem_zip⟩
  rw [List.getElem_map, List.getElem_map, Body.carried, getElem?_ofList_zip hnodup hlen hmem]
  rfl

end Maps

/-! ## 3. Tuples -/

/-- An open relation has the tuples that are spelled where its diagram is true. -/
theorem Contents.Sound.read_mem_iff {schema : Schema} {c : Contents} (hc : c.Sound schema)
    {ρ : Assignment} : c.layout.read ρ ∈ c.tuples ↔ c.manager.eval ρ c.root = true := by
  refine ⟨fun ⟨σ, hread, htrue⟩ => ?_, fun htrue => ⟨ρ, rfl, htrue⟩⟩
  rwa [hc.dependsOn σ ρ fun v hv => map_number_inj hread v (List.mem_toFinset.mp hv)] at htrue

/-- The tuples of an open relation fit its layout. -/
theorem Contents.fits_of_mem {c : Contents} {t : List Nat} (ht : t ∈ c.tuples) :
    c.layout.Fits t := by
  obtain ⟨ρ, rfl, _⟩ := ht
  exact c.layout.fits_read ρ

/-- Whether a tuple fits depends on the widths alone. -/
theorem Layout.Fits.of_widths {l l' : Layout} {t : List Nat} (h : l.Fits t)
    (hwidths : l.slots.map List.length = l'.slots.map List.length) : l'.Fits t := by
  have hmap : ∀ {slots : List (List Nat)},
      List.Forall₂ (fun vars k => k < 2 ^ List.length vars) slots t ↔
        List.Forall₂ (fun width k => k < 2 ^ width) (slots.map List.length) t :=
    (List.forall₂_map_left_iff (R := fun width k => k < 2 ^ width)).symm
  rw [Fits, hmap, ← hwidths, ← hmap]
  exact h

/-- **A set of tuples that fit is spelled by every diagram that is true on it.** -/
theorem Layout.Sound.spelled_eq {l : Layout} {m : Manager} (hl : l.Sound m)
    {X : Set (List Nat)} (hX : ∀ t ∈ X, l.Fits t) {value : Assignment → Bool}
    (hvalue : ∀ ρ, value ρ = true ↔ l.read ρ ∈ X) :
    {t | ∃ ρ, l.read ρ = t ∧ value ρ = true} = X := by
  ext t
  constructor
  · rintro ⟨ρ, rfl, htrue⟩
    exact (hvalue ρ).mp htrue
  · intro ht
    obtain ⟨ρ, rfl⟩ := hl.exists_read (hX t ht)
    exact ⟨ρ, rfl, (hvalue ρ).mpr ht⟩

end Factbase.Relation
