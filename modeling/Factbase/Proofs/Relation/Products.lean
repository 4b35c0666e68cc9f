import Factbase.Proofs.Relation.Cardinality
import Factbase.Proofs.Relation.Lifetimes
import Factbase.Proofs.Relation.Opening

/-!
# Products of domains

A relation that is opened as the product of its domains has every tuple of indices below their
sizes, also where a size is no power of two, and where it is 0 or 1. The bits of an index may lie
anywhere.

* `box`: the tuples below a list of sizes; `card_box`: **there are as many as the product of the
  sizes**;
* `exists_one`: a described relation opens as the tuples inside;
* `reached_one`: **it has exactly the tuples of the product**, and the function of each slot is true
  exactly on the numbers below the slot's size.
-/

namespace Factbase.Relation

open Diagram

/-! ## 1. Boxes -/

/-- The tuples with an entry below every size. -/
def box : List Nat → Finset (List Nat)
  | [] => {[]}
  | size :: sizes => (Finset.range size ×ˢ box sizes).image fun p => p.1 :: p.2

theorem mem_box : ∀ {sizes t : List Nat}, t ∈ box sizes ↔ List.Forall₂ (· < ·) t sizes
  | [], t => by rw [box, Finset.mem_singleton, List.forall₂_nil_right_iff]
  | size :: sizes, t => by
      rw [box, Finset.mem_image, List.forall₂_cons_right_iff]
      constructor
      · rintro ⟨⟨index, t⟩, hmem, rfl⟩
        obtain ⟨hindex, ht⟩ := Finset.mem_product.mp hmem
        exact ⟨index, t, Finset.mem_range.mp hindex, mem_box.mp ht, rfl⟩
      · rintro ⟨index, t, hindex, ht, rfl⟩
        exact ⟨(index, t), Finset.mem_product.mpr ⟨Finset.mem_range.mpr hindex, mem_box.mpr ht⟩,
          rfl⟩

/-- **There are as many as the product of the sizes.** -/
theorem card_box : ∀ sizes : List Nat, (box sizes).card = sizes.prod
  | [] => rfl
  | size :: sizes => by
      rw [box, Finset.card_image_of_injective, Finset.card_product, Finset.card_range,
        card_box sizes, List.prod_cons]
      rintro ⟨index, t⟩ ⟨index', t'⟩ same
      obtain ⟨rfl, rfl⟩ := List.cons.inj same
      rfl

/-- A tuple is in the box where it has an entry for every size and lies inside. -/
theorem mem_box_iff_inside {l : Layout} {t : List Nat} :
    t ∈ box l.sizes ↔ t.length = l.sizes.length ∧ l.Inside t := by
  rw [mem_box, List.forall₂_iff_get]
  refine and_congr_right fun hlen => ⟨fun h slot index hindex => ?_, fun h slot hslot hslot' => ?_⟩
  · obtain ⟨hslot, rfl⟩ := List.getElem?_eq_some_iff.mp hindex
    rw [List.getElem?_eq_getElem (hlen ▸ hslot)]
    exact h slot hslot (hlen ▸ hslot)
  · have hlt := h slot _ (List.getElem?_eq_getElem hslot)
    rwa [List.getElem?_eq_getElem hslot'] at hlt

/-! ## 2. Opening as the product -/

section Opening

variable {cat : Catalog} (env : Environment) {r : Relation} {schema : Schema}
  (h : Openable cat r schema)

include h

/-- **A described relation opens as the tuples below the sizes of its domains.** -/
theorem exists_one : ∃ c, one cat env r = .ok () (r.withContents schema c) ∧ c.Sound schema ∧
    c.layout.sizes = schema.sizes cat ∧ c.tuples = ↑(box (schema.sizes cat)) := by
  obtain ⟨p, hp, rfl, hm, hl, hsizes, _⟩ := exists_prepare env h
  obtain ⟨root, m, run, n, hroot, hval⟩ := hl.makes_inDomains hm
  refine ⟨⟨m, root, p.layout⟩, ?_, ⟨n.1, hroot, hl.next n, ?_⟩, hsizes, ?_⟩
  · simp only [one, openAs, hp, run]
    rfl
  · rw [hsizes, Schema.sizes, List.length_map]
  · have hlen : p.layout.slots.length = p.layout.sizes.length := by
      have := congrArg List.length hl.widths
      rwa [List.length_map, List.length_map] at this
    ext t
    rw [← hsizes, Finset.mem_coe, mem_box_iff_inside]
    constructor
    · rintro ⟨ρ, rfl, htrue⟩
      rw [hval, Layout.all_range_iff] at htrue
      exact ⟨by rw [Layout.read, List.length_map, hlen], htrue⟩
    · rintro ⟨ht, hinside⟩
      have hlength : p.layout.sizes.length = p.schema.signature.arity := by
        rw [hsizes, Schema.sizes, List.length_map, h.arity]
      have hvalid := valid_of_inside hl hsizes h.arity (ht.trans hlength)
        ((inside_iff hsizes).mp hinside)
      obtain ⟨ρ, rfl⟩ := hl.exists_read hvalid.fits
      exact ⟨ρ, rfl, (hval ρ).trans (Layout.all_range_iff.mpr hinside)⟩

end Opening

/-! ## 3. Main result -/

/-- **The product of the domains is exact.** A described relation that is reached and whose
configuration is that of a manager opens as the tuples with an index below the size of the domain
for every slot, whatever the sizes, the order of its signature and the direction of its bits. There
are as many as the product of the sizes, and none where a domain is empty. In its layout and any
manager that has it, the function of a slot's range is true exactly where the bits of the slot make
a number below the size. -/
theorem reached_one {r : Relation} (hr : Reached r) {schema : Schema}
    (hbound : r.stage = .bound schema) (hcreated : schema.signature.Created)
    (hconfig : ∀ config, r.config = some config → config.Valid) {cat : Catalog}
    (hsizes : ∀ handle ∈ schema.domains, (cat.domain handle).size ≤ twoPow 63)
    (env : Environment) :
    ∃ c, one cat env r = .ok () (r.withContents schema c) ∧
      c.tuples = {t | List.Forall₂ (· < ·) t (schema.sizes cat)} ∧
      sizeExact (r.withContents schema c) =
        .ok (schema.sizes cat).prod (r.withContents schema c) ∧
      c.manager.WellFormed ∧ c.layout.Sound c.manager ∧
      ∀ m, m.WellFormed → c.layout.Sound m → ∀ slot,
        Ends (c.layout.inRange slot) m fun range m' => m'.Holds range ∧
          ∀ ρ, m'.eval ρ range = true ↔
            number ρ (c.layout.vars slot) < (schema.domain cat slot).size := by
  have harity := hr.sound.arity_of_bound hbound
  obtain ⟨c, run, hc, hnow, htuples⟩ :=
    exists_one env ⟨hbound, hcreated.proper, harity, hsizes, hconfig⟩
  refine ⟨c, run, ?_, ?_, hc.manager, hc.layout, fun m hm hl slot => ?_⟩
  · rw [htuples]
    exact Set.ext fun t => mem_box
  · rw [sizeExact_eq rfl hc htuples, card_box]
  · refine (hl.makes_inRange hm slot).mono fun range m' ⟨_, hrange, hval⟩ => ⟨hrange, fun ρ => ?_⟩
    rw [hval, decide_eq_true_iff, getD_sizes_eq hnow]

/-- Over domains of three values, one and four, with interleaved and reversed bits, there are
twelve tuples. -/
theorem reached_one_uneven : ∃ cat r schema, Reached r ∧ r.stage = .bound schema ∧
    schema.signature.Created ∧ (∀ config, r.config = some config → config.Valid) ∧
    (∀ handle ∈ schema.domains, (cat.domain handle).size ≤ twoPow 63) ∧
    schema.signature.groups = [[2, 0], [1]] ∧ schema.sizes cat = [3, 1, 4] ∧
    ∃ c, one cat [] r = .ok () (r.withContents schema c) ∧ [2, 0, 3] ∈ c.tuples ∧
      [3, 0, 3] ∉ c.tuples ∧
      sizeExact (r.withContents schema c) = .ok 12 (r.withContents schema c) := by
  let cat : Catalog := ⟨#[.words ⟨"V", fun n => s!"{n}", ⟨#[5, 6, 7], ∅⟩⟩,
    .words ⟨"W", fun n => s!"{n}", ⟨#[1], ∅⟩⟩, .words ⟨"X", fun n => s!"{n}", ⟨#[4, 3, 2, 1], ∅⟩⟩]⟩
  let schema : Schema :=
    ⟨"own", ⟨["V0", "W0", "X0"], some "X0xV0_W0", [[2, 0], [1]]⟩, [0, 1, 2]⟩
  have hr : Reached ⟨some ⟨6, 3, 0.2, true, .native⟩, .bound schema⟩ :=
    reached_bound rfl rfl (show checkKinds "own" cat 0 _ = _ from rfl)
  have hcreated : schema.signature.Created := ⟨["V0", "W0", "X0"], some "X0xV0_W0", rfl⟩
  have hconfig : ∀ config : Config, some ⟨6, 3, 0.2, true, .native⟩ = some config → config.Valid :=
    fun _ h => Option.some.inj h ▸ Config.valid_small true
  have hsizes : ∀ handle ∈ schema.domains, (cat.domain handle).size ≤ twoPow 63 := by decide
  obtain ⟨c, run, htuples, hsize, _⟩ := reached_one hr rfl hcreated hconfig hsizes []
  have hnow : schema.sizes cat = [3, 1, 4] := rfl
  refine ⟨cat, _, schema, hr, rfl, hcreated, hconfig, hsizes, rfl, hnow, c, run, ?_, ?_, hsize⟩
  · rw [htuples, hnow]
    exact .cons (by decide) (.cons (by decide) (.cons (by decide) .nil))
  · rw [htuples, hnow]
    exact fun h => Nat.lt_irrefl 3 (List.forall₂_cons.mp h).1

end Factbase.Relation
