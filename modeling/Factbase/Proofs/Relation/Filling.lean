import Factbase.Proofs.Relation.Carrying
import Factbase.Proofs.Relation.Directions
import Factbase.Proofs.Relation.TupleSets
import Mathlib.Algebra.GroupWithZero.Nat

/-!
# Filling relations

* `exists_filled`, `exists_opened`, `exists_holding`: **a described relation comes to hold any
  tuples of its domains**, with its bits in either direction;
* `addressable_of_sizes`: over few small domains its nodes are few;
* `OpenedWith.levels_pair`: the levels of a slot of two bits that is alone, in both directions.
-/

namespace Factbase.Relation

open Diagram

section Filling

variable {cat : Catalog} {r : Relation} {schema : Schema} (hr : Reached r)
  (h : Openable cat r schema)

include hr h

/-- **A described relation comes to hold any tuples of its domains.** It is opened empty, and the
tuples are added one by one. -/
theorem exists_filled : ∀ ts : List (List Nat),
    (∀ t ∈ ts, t.length = schema.signature.arity ∧ schema.Inside cat t) →
    ∃ c, OpenedWith (r.direction []) (r.withContents schema c) ∧
      c.layout.sizes = schema.sizes cat ∧ c.tuples = {t | t ∈ ts}
  | [], _ => by
      obtain ⟨c, run, hsizes, hempty⟩ := exists_zero [] h
      have hafter : after (zero cat []) r = r.withContents schema c := by rw [after, run]
      have hopened : OpenedWith (r.direction []) (after (zero cat []) r) :=
        .opened hr (by rw [state, h.bound]) rfl (.zero cat) (by rw [hafter]; rfl)
      rw [hafter] at hopened
      refine ⟨c, hopened, hsizes, ?_⟩
      rw [hempty]
      exact (Set.eq_empty_of_forall_notMem fun _ => List.not_mem_nil).symm
  | t :: ts, hts => by
      obtain ⟨⟨hlen, ht⟩, hts⟩ := List.forall_mem_cons.mp hts
      obtain ⟨c, hopened, hsizes, htuples⟩ := exists_filled ts hts
      have hc := hopened.reached.contents rfl
      have hvalid := valid_of_inside hc.layout hsizes h.arity hlen ht
      obtain ⟨_, _, run, c', rfl, _, hlayout, htuples'⟩ :=
        ends_addIndices (r := r.withContents schema c) rfl hc hvalid
      have hopened' := hopened.act (.addIndices cat t)
      rw [after, run] at hopened'
      refine ⟨c', hopened', by rw [hlayout, hsizes], ?_⟩
      rw [htuples', htuples]
      exact Set.ext fun _ => List.mem_cons.symm

end Filling

section Described

variable (cat : Catalog) (schema : Schema) (reverse : Bool) (hname : schema.name.isEmpty = false)
  (hcreated : schema.signature.Created)
  (harity : schema.domains.length = schema.signature.arity)
  (hkinds : checkKinds schema.name cat 0 (schema.signature.names.zip schema.domains) = .ok ())
  (hnarrow : ∀ handle ∈ schema.domains, (cat.domain handle).size ≤ twoPow 63)
  (ts : List (List Nat)) (hts : ∀ t ∈ ts, List.Forall₂ (· < ·) t (schema.sizes cat))

include reverse hname hcreated harity hkinds hnarrow hts

/-- **A small relation of any description is opened that holds any tuples of its domains**, with
its bits in the given direction. -/
theorem exists_opened : ∃ r c, OpenedWith reverse r ∧ r.stage = .opened schema c ∧
    c.layout.sizes = schema.sizes cat ∧ c.tuples = {t | t ∈ ts} := by
  have hr : Reached ⟨some ⟨6, 3, 0.2, reverse, .native⟩, .bound schema⟩ :=
    reached_bound hname harity hkinds
  have hlen : (schema.sizes cat).length = schema.signature.arity := by
    rw [Schema.sizes, List.length_map, harity]
  obtain ⟨c, hopened, hsizes, htuples⟩ := exists_filled hr
    { bound := rfl
      proper := hcreated.proper
      arity := harity
      narrow := hnarrow
      config := fun _ h => Option.some.inj h ▸ Config.valid_small reverse } ts
    fun t ht => ⟨(hts t ht).length_eq.trans hlen, Schema.inside_of_sizes (hts t ht)⟩
  exact ⟨_, c, hopened, rfl, hsizes, htuples⟩

/-- **A small relation of any description is reached that holds any tuples of its domains.** -/
theorem exists_holding : ∃ r c, Reached r ∧ r.stage = .opened schema c ∧
    c.layout.sizes = schema.sizes cat ∧ c.tuples = {t | t ∈ ts} := by
  obtain ⟨r, c, hopened, hopen, hsizes, htuples⟩ :=
    exists_opened cat schema reverse hname hcreated harity hkinds hnarrow ts hts
  exact ⟨r, c, hopened.reached, hopen, hsizes, htuples⟩

end Described

/-- Over few small domains the nodes of a relation are few. -/
theorem addressable_of_sizes {schema : Schema} {c : Contents} (hc : c.Sound schema)
    (h : (c.layout.sizes.map bitsFor).sum ≤ 4) : c.manager.Addressable := by
  refine hc.manager.addressable ?_
  have hlen := congrArg List.length hc.layout.flat
  rw [List.length_range', List.length_flatten, hc.layout.widths] at hlen
  omega

/-- The bits of a slot that is alone. -/
theorem Layout.Sound.slots_single {l : Layout} {m : Manager} (h : l.Sound m) {size : Nat}
    (hsizes : l.sizes = [size]) :
    l.slots = [List.range' 1 (bitsFor size)] ∧ m.numVars = bitsFor size := by
  have hwidths := h.widths
  rw [hsizes, List.map_singleton, List.map_eq_singleton_iff] at hwidths
  obtain ⟨vars, hslots, hlen⟩ := hwidths
  have hflat := h.flat
  rw [hslots, List.flatten_singleton] at hflat
  have hcount : m.numVars = bitsFor size := by rw [← hlen, hflat, List.length_range']
  exact ⟨by rw [hslots, hflat, hcount], hcount⟩

/-- The levels of a slot of two bits that is alone. -/
theorem OpenedWith.levels_pair {reverse : Bool} {r : Relation} (h : OpenedWith reverse r)
    {schema : Schema} {c : Contents} (hopen : r.stage = .opened schema c)
    (hgroups : schema.signature.groups = [[0]]) (hsizes : c.layout.sizes = [4]) :
    c.layout.levels c.manager 0 = .ok (if reverse then [1, 0] else [0, 1]) := by
  obtain ⟨hslots, hvars⟩ := (h.reached.contents hopen).layout.slots_single hsizes
  have horder := h.levelled.ofList_eq hopen
  rw [hslots, hvars, hgroups] at horder
  obtain ⟨hsound, _, hplaced, _⟩ := Order.sound_ofList horder
  have hlevel : ∀ level v, (Layout.arrange [List.range' 1 (bitsFor 4)] reverse [[0]])[level]? =
      some v → c.manager.order.levelOf v = .ok level := fun level v hget =>
    hsound.levelOf_eq_ok_iff.mpr (by rw [Order.varAt, hplaced, hget])
  have hvars : c.layout.vars 0 = [1, 2] := by
    rw [Layout.vars, hslots]
    rfl
  cases reverse with
  | false =>
      rw [Layout.levels, hvars, List.mapM_cons, List.mapM_cons, hlevel 0 1 rfl, hlevel 1 2 rfl]
      rfl
  | true =>
      rw [Layout.levels, hvars, List.mapM_cons, List.mapM_cons, hlevel 1 1 rfl, hlevel 0 2 rfl]
      rfl

end Factbase.Relation
