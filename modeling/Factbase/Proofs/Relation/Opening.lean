import Factbase.Proofs.Relation.Invariant
import Factbase.Proofs.Signatures

/-!
# Opening succeeds

A relation over a proper signature opens whatever order its signature has, whatever its
configuration says about reversed bits, and whatever sizes its domains have.

* `perm_arrange`: **the levels of a layout are an arrangement of the slots' variables**;
* `ends_create`: so the layout is created;
* `Config.Valid`, `valid_ofEnvironment`: the sizings that a manager can have, among them that of
  every environment;
* `Openable`: the described relations that can be opened, and `exists_prepare`: **they are prepared
  for opening**;
* `Schema.Inside`: a tuple of indices below the present sizes of the domains, which is valid in a
  layout that was just created (`valid_of_inside`).
-/

namespace Factbase.Relation

open Diagram

/-! ## 1. Levels -/

namespace Layout

/-- The elements of a list by their positions. -/
theorem filterMap_range (vars : List Nat) :
    (List.range vars.length).filterMap (vars[·]?) = vars := by
  have hmap : (List.range vars.length).map (vars[·]?) = vars.map some :=
    List.ext_getElem (by simp) fun i hi hi' => by simp
  have hid := congrArg (List.filterMap id) hmap
  rwa [List.filterMap_map, List.filterMap_map, Function.id_comp, Function.id_comp,
    List.filterMap_some] at hid

/-- One slot's variables, which are dealt behind the steps that wider slots need. -/
theorem perm_dealSlot (vars : List Nat) (reverse : Bool) {width : Nat} (h : vars.length ≤ width) :
    ((List.range width).filterMap fun step =>
      if step < width - vars.length then none
      else if reverse then vars[vars.length - 1 - (step - (width - vars.length))]?
      else vars[step - (width - vars.length)]?).Perm vars := by
  obtain ⟨offset, rfl⟩ := Nat.exists_eq_add_of_le' h
  rw [Nat.add_sub_cancel, List.range_add, List.filterMap_append, List.filterMap_eq_nil_iff.mpr
    fun step hstep => if_pos (List.mem_range.mp hstep), List.nil_append, List.filterMap_map]
  cases reverse with
  | true =>
      refine List.Perm.trans (.of_eq ?_) (List.reverse_perm vars)
      have hrange := filterMap_range vars.reverse
      rw [List.length_reverse] at hrange
      rw [← hrange]
      refine List.filterMap_congr fun step hstep => ?_
      rw [Function.comp_apply, if_neg (by omega), if_pos rfl, Nat.add_sub_cancel_left,
        List.getElem?_reverse (List.mem_range.mp hstep)]
  | false =>
      refine .of_eq ((List.filterMap_congr fun step _ => ?_).trans (filterMap_range vars))
      rw [Function.comp_apply, if_neg (by omega), if_neg Bool.false_ne_true,
        Nat.add_sub_cancel_left]

/-- Dealing step by step is dealing slot by slot. -/
theorem perm_flatMap_filterMap {α β γ : Type} (f : α → β → Option γ) (steps : List α) :
    ∀ slots : List β, (steps.flatMap fun step => slots.filterMap (f step)).Perm
      (slots.flatMap fun slot => steps.filterMap (f · slot))
  | [] => .of_eq (by simp)
  | slot :: slots => by
      have hsplit : (fun step => (slot :: slots).filterMap (f step)) =
          fun step => (f step slot).toList ++ slots.filterMap (f step) := funext fun step => by
        rw [List.filterMap_cons]
        cases f step slot <;> rfl
      rw [hsplit, List.flatMap_cons, List.filterMap_eq_flatMap_toList]
      exact (List.flatMap_append_perm _ _ _).symm.trans
        ((perm_flatMap_filterMap f steps slots).append_left _)

/-- The greatest of some numbers is none of them short. -/
theorem le_foldl_max : ∀ (ns : List Nat) (start : Nat), start ≤ ns.foldl max start ∧
    ∀ n ∈ ns, n ≤ ns.foldl max start
  | [], start => ⟨Nat.le_refl start, fun _ h => absurd h List.not_mem_nil⟩
  | n :: ns, start => by
      obtain ⟨hstart, hall⟩ := le_foldl_max ns (max start n)
      rw [List.foldl_cons]
      exact ⟨by omega, List.forall_mem_cons.mpr ⟨by omega, hall⟩⟩

/-- A group has the variables of its slots. -/
theorem perm_dealGroup (slots : List (List Nat)) (reverse : Bool) (group : List Nat) :
    (dealGroup slots reverse group).Perm (group.flatMap fun slot => slots[slot]?.getD []) := by
  unfold dealGroup dealStep
  refine (perm_flatMap_filterMap _ _ group).trans (List.Perm.flatMap_left _ fun slot hslot => ?_)
  exact perm_dealSlot _ reverse ((le_foldl_max _ 0).2 _ (List.mem_map.mpr ⟨slot, hslot, rfl⟩))

/-- **The levels of a layout are an arrangement of the slots' variables**, where every slot stands
in the groups once. -/
theorem perm_arrange {slots : List (List Nat)} {groups : List (List Nat)} (reverse : Bool)
    (h : groups.flatten.Perm (List.range slots.length)) :
    (arrange slots reverse groups).Perm slots.flatten := by
  have hslots : (List.range slots.length).flatMap (fun slot => slots[slot]?.getD []) =
      slots.flatten := by
    rw [List.flatMap_def]
    refine congrArg List.flatten (List.ext_getElem (by simp) fun i _ hi => ?_)
    rw [List.getElem_map, List.getElem_range, List.getElem?_eq_getElem hi, Option.getD_some]
  have hgroups : (groups.flatMap fun group => group.flatMap fun slot => slots[slot]?.getD []) =
      groups.flatten.flatMap fun slot => slots[slot]?.getD [] := by
    rw [List.flatten_eq_flatMap, List.flatMap_assoc]
    rfl
  refine (List.Perm.flatMap_left _ fun group _ => perm_dealGroup slots reverse group).trans ?_
  rw [hgroups, ← hslots]
  exact h.flatMap_right _

/-- **A layout over a proper signature is created.** -/
theorem ends_create {m : Manager} (h : m.WellFormed) (hnodes : m.numNodes = 1)
    (hvars : m.numVars = 0) {groups : List (List Nat)} {sizes : List Nat} (reverse : Bool)
    (hnarrow : ∀ size ∈ sizes, size ≤ twoPow 63)
    (hgroups : groups.flatten.Perm (List.range sizes.length)) :
    Ends (create groups sizes reverse) m fun l m' =>
      m'.WellFormed ∧ l.Sound m' ∧ l.sizes = sizes := by
  have hwidths : sizes.mapM widthOf = .ok (sizes.map bitsFor) :=
    mapM_eq_ok fun size hsize => if_neg (Nat.not_lt.mpr (hnarrow size hsize))
  have hask : Manager.ask (fun _ => sizes.mapM widthOf) m = .ok (sizes.map bitsFor) m := by
    rw [Manager.ask, hwidths]
  unfold create
  refine ends_bind hask ((ends_blocks_bitsFor ⟨h, hnodes⟩ hvars hnarrow).bind
    fun slots m₁ hblocks => ?_)
  obtain ⟨hm₁, hlens, hflat⟩ := hblocks
  have hlen : slots.length = sizes.length := by
    have hsame := congrArg List.length hlens
    rwa [List.length_map, List.length_map] at hsame
  have hperm : (arrange slots reverse groups).Perm (List.range' 1 m₁.numVars) := by
    rw [← hflat]
    exact perm_arrange reverse (by rwa [hlen])
  obtain ⟨order, horder⟩ := Order.exists_ofList hperm
  have hset : Manager.setVarOrder (arrange slots reverse groups) m₁ =
      .ok () { m₁ with order := order } := by
    rw [Manager.setVarOrder, if_neg (not_not.mpr hm₁.2), horder]
  refine ends_bind hset ((ends_complete (hm₁.1.reorder hm₁.2 horder) ?_ hlens hnarrow).mono
    fun _ _ h => ⟨h.1.1, h.2.1, h.2.2.1⟩)
  have hsize : order.size = m₁.numVars := (Order.sound_ofList horder).2.1
  rw [hflat, ← hsize]
  rfl

end Layout

end Factbase.Relation

namespace Factbase

open Diagram

/-! ## 2. Sizings -/

namespace Config

/-- The sizes are those that a manager can have. -/
structure Valid (config : Config) : Prop where
  nodeTableBits : config.nodeTableBits ≤ 31
  cacheBits : config.cacheBits ≤ 31
  minFree : (0.0 ≤ config.minFree && config.minFree < 1.0) = true

/-- A manager of valid sizes is created. -/
theorem Valid.exists_create {config : Config} (h : config.Valid) :
    ∃ m, Manager.create config.nodeTableBits config.cacheBits config.minFree = .ok m :=
  ⟨_, bind_eq_ok ((if_neg (Nat.not_lt.mpr h.nodeTableBits)).trans (if_pos h.minFree))
    (bind_eq_ok (if_neg (Nat.not_lt.mpr h.cacheBits)) rfl)⟩

/-- The fraction that is standard is a fraction. -/
theorem standardFraction_valid : (0.0 ≤ (0.2 : Float) && (0.2 : Float) < 1.0) = true := by
  decide +kernel

/-- A small manager. -/
theorem valid_small (reverse : Bool) : Config.Valid ⟨6, 3, 0.2, reverse, .native⟩ :=
  ⟨show 6 ≤ 31 by decide, show 3 ≤ 31 by decide, standardFraction_valid⟩

theorem clampBits_le (key : String) (bits : Nat) : (clampBits key bits).value ≤ 31 := by
  unfold clampBits
  split
  · exact Nat.le_refl 31
  · exact Nat.not_lt.mp (by assumption)

/-- A fraction is in range, or the standard one takes its place. -/
theorem clampFraction_valid (x : Float) :
    (0.0 ≤ (clampFraction x 0.2).value && (clampFraction x 0.2).value < 1.0) = true := by
  unfold clampFraction
  split
  · assumption
  · exact standardFraction_valid

/-- **Whatever the environment says, a manager of these sizes is created.** -/
theorem valid_ofEnvironment (env : Environment) : (ofEnvironment env).value.Valid :=
  ⟨clampBits_le _ _, clampBits_le _ _, clampFraction_valid _⟩

/-! ## 3. Warnings about settings -/

/-- The settings have nothing to say about tuples. -/
theorem not_dropped_ofEnvironment (env : Environment) (relation path : String) :
    Warning.dropped relation path ∉ (ofEnvironment env).warnings := by
  have hsetting : ∀ {α : Type} (key : String) (read : List Char → Except SettingError α)
      (default : α), Warning.dropped relation path ∉ (setting env key read default).warnings := by
    intro α key read default
    unfold setting
    split
    · exact List.not_mem_nil
    · split
      · exact List.not_mem_nil
      · simp
  have hbits : ∀ (key : String) (bits : Nat),
      Warning.dropped relation path ∉ (clampBits key bits).warnings := by
    intro key bits
    unfold clampBits
    split <;> simp
  have hfraction : ∀ x default : Float,
      Warning.dropped relation path ∉ (clampFraction x default).warnings := by
    intro x default
    unfold clampFraction
    split <;> simp
  simp only [ofEnvironment, List.mem_append, hsetting, hbits, hfraction, or_self, not_false_iff]

/-- The configuration that a relation is opened with. -/
def chosen (env : Environment) : Option Config → Warned Config
  | some config => ⟨config, []⟩
  | none => ofEnvironment env

end Config

/-! ## 4. Relations -/

namespace Relation

/-- The present sizes of a relation's domains. -/
def Schema.sizes (cat : Catalog) (schema : Schema) : List Nat :=
  schema.domains.map fun handle => (cat.domain handle).size

/-- Every index of the tuple is below the present size of its domain. -/
def Schema.Inside (cat : Catalog) (schema : Schema) (t : List Nat) : Prop :=
  ∀ (slot index : Nat), t[slot]? = some index → index < (schema.domain cat slot).size

theorem Schema.getD_sizes (cat : Catalog) (schema : Schema) (slot : Nat) :
    (schema.sizes cat)[slot]?.getD 0 = (schema.domain cat slot).size := by
  rw [Schema.sizes, List.getElem?_map, Schema.domain]
  cases schema.domains[slot]? <;> rfl

/-- The indices of a tuple are compared with the sizes one by one. -/
theorem Schema.inside_of_sizes {cat : Catalog} {schema : Schema} {t : List Nat}
    (h : List.Forall₂ (· < ·) t (schema.sizes cat)) : schema.Inside cat t := by
  intro slot index hindex
  obtain ⟨hslot, rfl⟩ := List.getElem?_eq_some_iff.mp hindex
  have hsize : slot < (schema.sizes cat).length := h.length_eq ▸ hslot
  rw [← Schema.getD_sizes, List.getElem?_eq_getElem hsize]
  exact h.get hslot hsize

/-- A described relation that can be opened: its slots stand in the groups of its signature once and
have domains that are not too large, and its configuration is that of a manager. -/
structure Openable (cat : Catalog) (r : Relation) (schema : Schema) : Prop where
  bound : r.stage = .bound schema
  proper : schema.signature.Proper
  arity : schema.domains.length = schema.signature.arity
  narrow : ∀ handle ∈ schema.domains, (cat.domain handle).size ≤ twoPow 63
  config : ∀ config, r.config = some config → config.Valid

section Opening

variable {cat : Catalog} (env : Environment) {r : Relation} {schema : Schema}

/-- Preparing creates the manager, and in it the layout. -/
theorem prepare_of_create {config : Option Config} {manager m : Manager} {layout : Layout}
    (hmanager : Manager.create (Config.chosen env config).value.nodeTableBits
      (Config.chosen env config).value.cacheBits (Config.chosen env config).value.minFree =
        .ok manager)
    (hlayout : Layout.create schema.signature.groups (schema.sizes cat)
      (Config.chosen env config).value.reverseOrder manager = .ok layout m) :
    prepare cat env ⟨config, .bound schema⟩ =
      .ok ⟨schema, (Config.chosen env config).warnings, m, layout⟩ := by
  unfold Schema.sizes at hlayout
  cases config <;>
  · refine bind_eq_ok hmanager ?_
    dsimp only [Config.chosen] at hlayout ⊢
    rw [hlayout]
    rfl

variable (h : Openable cat r schema)

include h

/-- **A described relation is prepared for opening**, with a sound layout for the present sizes of
its domains. -/
theorem exists_prepare : ∃ p, r.prepare cat env = .ok p ∧ p.schema = schema ∧
    p.manager.WellFormed ∧ p.layout.Sound p.manager ∧ p.layout.sizes = schema.sizes cat ∧
    ∀ relation path, Warning.dropped relation path ∉ p.warnings := by
  obtain ⟨config, stage⟩ := r
  obtain rfl : stage = .bound schema := h.bound
  have hchosen : (Config.chosen env config).value.Valid ∧
      ∀ relation path, Warning.dropped relation path ∉ (Config.chosen env config).warnings := by
    cases config with
    | none => exact ⟨Config.valid_ofEnvironment env, Config.not_dropped_ofEnvironment env⟩
    | some config => exact ⟨h.config config rfl, fun _ _ => List.not_mem_nil⟩
  obtain ⟨manager, hmanager⟩ := hchosen.1.exists_create
  obtain ⟨hm, hnodes, horder⟩ := Manager.wellFormed_create hmanager
  have hvars : manager.numVars = 0 := by rw [Manager.numVars, horder]; rfl
  have hgroups : schema.signature.groups.flatten.Perm (List.range (schema.sizes cat).length) := by
    rw [Schema.sizes, List.length_map, h.arity]
    exact h.proper.groups
  have hnarrow : ∀ size ∈ schema.sizes cat, size ≤ twoPow 63 := List.forall_mem_map.mpr h.narrow
  obtain ⟨layout, m, run, hm', hlayout, hsame⟩ := Layout.ends_create hm hnodes hvars
    (Config.chosen env config).value.reverseOrder hnarrow hgroups
  exact ⟨_, prepare_of_create env hmanager run, rfl, hm', hlayout, hsame, hchosen.2⟩

/-- **A described relation opens as the empty set.** -/
theorem exists_zero : ∃ c, zero cat env r = .ok () (r.withContents schema c) ∧
    c.layout.sizes = schema.sizes cat ∧ c.tuples = ∅ := by
  obtain ⟨p, hp, rfl, _, _, hsizes, _⟩ := exists_prepare env h
  refine ⟨⟨p.manager, .zero, p.layout⟩, ?_, hsizes, Set.eq_empty_of_forall_notMem ?_⟩
  · simp only [zero, openAs, hp]
    rfl
  · rintro t ⟨ρ, _, htrue⟩
    rw [Manager.eval_zero] at htrue
    cases htrue

end Opening

section Fresh

variable {cat : Catalog} {schema : Schema} {l : Layout} {m : Manager} (hl : l.Sound m)
  (hsizes : l.sizes = schema.sizes cat)

include hsizes

/-- A layout that was just created has the present sizes. -/
theorem getD_sizes_eq (slot : Nat) : l.sizes[slot]?.getD 0 = (schema.domain cat slot).size := by
  rw [hsizes, Schema.getD_sizes]

theorem inside_iff {t : List Nat} : l.Inside t ↔ schema.Inside cat t := by
  simp only [Layout.Inside, Schema.Inside, getD_sizes_eq hsizes]

include hl

theorem width_eq_bitsFor {slot : Nat} (hslot : slot < schema.domains.length) :
    l.width slot = bitsFor (schema.domain cat slot).size := by
  have hwidth := congrArg (fun widths : List Nat => widths[slot]?.getD 0) hl.widths
  rw [hsizes, Schema.sizes, List.map_map, List.getElem?_map, List.getElem?_map,
    List.getElem?_eq_getElem hslot] at hwidth
  rw [Schema.domain, List.getElem?_eq_getElem hslot]
  refine Eq.trans ?_ hwidth
  rw [Layout.width, Layout.vars]
  cases l.slots[slot]? <;> rfl

theorem length_slots_eq (harity : schema.domains.length = schema.signature.arity) :
    l.slots.length = schema.signature.names.length := by
  have hsame := congrArg List.length hl.widths
  rw [List.length_map, List.length_map, hsizes, Schema.sizes, List.length_map, harity] at hsame
  exact hsame

/-- **The tuples of the present domains are valid** in a layout that was just created. -/
theorem valid_of_inside (harity : schema.domains.length = schema.signature.arity) {t : List Nat}
    (hlen : t.length = schema.signature.arity) (ht : schema.Inside cat t) :
    Valid cat schema l t where
  arity := hlen.trans (length_slots_eq hl hsizes harity).symm
  inDomain := ht
  inWidth slot index hindex := by
    obtain ⟨hslot, _⟩ := List.getElem?_eq_some_iff.mp hindex
    rw [width_eq_bitsFor hl hsizes (by omega)]
    exact Nat.lt_of_lt_of_le (ht slot index hindex) (le_twoPow_bitsFor _)

end Fresh

end Relation

end Factbase
