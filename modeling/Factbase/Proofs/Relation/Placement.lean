import Factbase.Proofs.Relation.Dealing
import Factbase.Proofs.Relation.Directions
import Factbase.Proofs.Relation.Viewing
import Mathlib.Data.Nat.Log

/-!
# Where the bits of a relation stand

The slots of a relation have consecutive blocks of variables, and the signature and the direction of
the bits say in which levels these stand.

* `Sound.vars_eq`, `Sound.width_eq_clog`: the block of a slot;
* `levelOf_upward`: **a bit stands in its place, behind the groups above its own**;
* `Stands`: the level of a bit, which is told by its significance;
* `Placed`, `Aligned`: blocks, bands of levels and, where the bits are not reversed, the order
  inside a band; `Sound.placed`, `Sound.aligned`: layouts have these where their variables are
  arranged;
* `levels_reverse`: **reversed bits have the levels of the others in the opposite order**;
* `OpeningOver.outcome`: what opens a relation fails only where it cannot be prepared, and
  `fault_of_prepare`: **never for its arrangement**;
* `opens_placed`: **the bits of every relation that is opened are where they should be.**
-/

namespace Factbase.Relation

open Diagram

namespace Layout

/-! ## 1. Blocks -/

/-- The width of a size is its binary logarithm, rounded up, and at least one. -/
theorem bitsFor_eq_clog (size : Nat) : bitsFor size = max 1 (Nat.clog 2 size) := by
  refine Nat.le_antisymm (Nat.le_of_not_lt fun hlt => ?_) (Nat.max_le.mpr ⟨one_le_bitsFor size, ?_⟩)
  · have hsize : twoPow (max 1 (Nat.clog 2 size)) < size :=
      twoPow_lt_of_lt_bitsFor (Nat.le_max_left _ _) hlt
    exact Nat.not_lt.mpr
      ((Nat.clog_le_iff_le_pow Nat.one_lt_two).mp (Nat.le_max_right 1 _)) hsize
  · exact (Nat.clog_le_iff_le_pow Nat.one_lt_two).mpr (le_twoPow_bitsFor size)

/-- A block that is one of consecutive blocks. -/
theorem eq_range'_of_flatten : ∀ {slots : List (List Nat)} {first count slot : Nat}
    {vars : List Nat}, slots.flatten = List.range' first count → slots[slot]? = some vars →
      vars = List.range' (first + ((slots.take slot).map List.length).sum) vars.length
  | block :: slots, first, count, slot, vars, hflat, hget => by
      rw [List.flatten_cons, eq_comm, List.range'_eq_append_iff] at hflat
      obtain ⟨width, _, rfl, hrest⟩ := hflat
      cases slot with
      | zero =>
          obtain rfl := Option.some.inj hget
          rw [List.length_range']
          rfl
      | succ slot =>
          rw [Nat.mul_one] at hrest
          rw [List.take_succ_cons, List.map_cons, List.sum_cons, List.length_range',
            ← Nat.add_assoc]
          exact eq_range'_of_flatten hrest hget

/-- The bits of the slots in front of one. -/
theorem sum_take_eq_bits {l : Layout} {slot : Nat} (hslot : slot ≤ l.arity) :
    ((l.slots.take slot).map List.length).sum = l.bits (List.range slot) := by
  rw [← map_vars l, ← List.map_take, List.take_range, Nat.min_eq_left hslot, List.map_map]
  rfl

theorem width_eq_getD (l : Layout) (slot : Nat) :
    l.width slot = (l.slots.map List.length)[slot]?.getD 0 := by
  rw [width, vars, List.getElem?_map]
  cases l.slots[slot]? <;> rfl

section Reading

variable {l : Layout} {m : Manager} (h : l.Sound m) {slot v level : Nat}

include h

theorem Sound.allocated_of_mem_vars (hv : v ∈ l.vars slot) : m.order.Allocated v := by
  have hslot : slot < l.arity := Nat.lt_of_not_le fun hbeyond => by
    rw [vars, List.getElem?_eq_none hbeyond] at hv
    exact List.not_mem_nil hv
  exact h.mem_flatten.mp ((sublist_flatten hslot).subset hv)

theorem Sound.width_eq_clog {size : Nat} (hsize : l.sizes[slot]? = some size) :
    l.width slot = max 1 (Nat.clog 2 size) := by
  rw [width_eq_getD, h.widths, List.getElem?_map, hsize, ← bitsFor_eq_clog]
  rfl

/-- **The block of a slot begins behind those of the slots before.** -/
theorem Sound.vars_eq (hslot : slot < l.arity) :
    l.vars slot = List.range' (1 + l.bits (List.range slot)) (l.width slot) := by
  have hget : l.slots[slot]? = some (l.vars slot) := by
    rw [vars, List.getElem?_eq_getElem hslot]
    rfl
  rw [← sum_take_eq_bits (Nat.le_of_lt hslot)]
  exact eq_range'_of_flatten h.flat hget

/-- The levels of a slot, as they are asked for. -/
theorem Sound.levels_eq (hm : m.order.Sound) (slot : Nat) :
    l.levels m slot = .ok ((l.vars slot).map m.order.levelAt) :=
  mapM_eq_ok fun _ hv => hm.levelOf_eq (h.allocated_of_mem_vars hv)

end Reading

/-! ## 2. Levels -/

section Levels

variable {l : Layout} {m : Manager} {groups above below : List (List Nat)} {group : List Nat}
  {reverse : Bool} (horder : Order.ofList m.numVars (arrange l.slots reverse groups) = .ok m.order)
  {slot b v level : Nat}

include horder

/-- The levels are the places in the arrangement. -/
theorem levelOf_eq_ok_iff :
    m.order.levelOf v = .ok level ↔ (arrange l.slots reverse groups)[level]? = some v := by
  obtain ⟨hsound, _, hvars, _⟩ := Order.sound_ofList horder
  rw [hsound.levelOf_eq_ok_iff, Order.varAt, hvars]
  cases (arrange l.slots reverse groups)[level]? with
  | some w =>
      exact ⟨fun h => congrArg some (Except.ok.inj h), fun h => congrArg _ (Option.some.inj h)⟩
  | none => exact ⟨fun h => (by cases h), fun h => (by cases h)⟩

/-- **A bit stands in its place, behind the groups above its own.** -/
theorem levelOf_upward (hgroups : groups = above ++ group :: below) (hslot : slot ∈ group)
    (hv : (l.upward reverse slot)[b]? = some v) :
    m.order.levelOf v = .ok (l.bits above.flatten + l.place group slot b) := by
  rw [levelOf_eq_ok_iff horder, hgroups]
  exact getElem?_arrange reverse above below (getElem?_dealGroup hslot hv)

end Levels

/-! ## 3. Bands and their order -/

/-- The bit of significance `b` of a slot, 0 being the least, stands at the level. -/
def Stands (l : Layout) (m : Manager) (slot b level : Nat) : Prop :=
  ∃ v, (l.vars slot).reverse[b]? = some v ∧ m.order.levelOf v = .ok level

theorem exists_stands_iff {l : Layout} {m : Manager} {slot level : Nat} :
    (∃ b, l.Stands m slot b level) ↔ ∃ v ∈ l.vars slot, m.order.levelOf v = .ok level := by
  constructor
  · rintro ⟨b, v, hv, hlevel⟩
    exact ⟨v, List.mem_reverse.mp (List.mem_iff_getElem?.mpr ⟨b, hv⟩), hlevel⟩
  · rintro ⟨v, hv, hlevel⟩
    obtain ⟨b, hb⟩ := List.mem_iff_getElem?.mp (List.mem_reverse.mpr hv)
    exact ⟨b, v, hb, hlevel⟩

/-- **The variables of the slots are consecutive blocks, and stand in bands of levels.** -/
structure Placed (l : Layout) (m : Manager) (groups : List (List Nat)) (sizes : List Nat) :
    Prop where
  arity : l.arity = sizes.length
  width : ∀ slot size, sizes[slot]? = some size → l.width slot = max 1 (Nat.clog 2 size)
  /-- A block begins behind those of the slots before. -/
  block : ∀ slot, slot < l.arity →
    l.vars slot = List.range' (1 + l.bits (List.range slot)) (l.width slot)
  /-- All blocks together are all variables. -/
  whole : l.slots.flatten = List.range' 1 m.numVars
  /-- Levels and variables answer each other. -/
  inverse : ∀ v level, m.order.levelOf v = .ok level ↔ m.order.varAt level = .ok v
  isVariable : ∀ v, (∃ level, m.order.levelOf v = .ok level) ↔ 1 ≤ v ∧ v ≤ m.numVars
  isLevel : ∀ level, (∃ v, m.order.varAt level = .ok v) ↔ level < m.numVars
  /-- The levels of a group follow those of the groups above. -/
  bands : ∀ above group below, groups = above ++ group :: below → ∀ level,
    (∃ slot ∈ group, ∃ b, l.Stands m slot b level) ↔
      l.bits above.flatten ≤ level ∧ level < l.bits above.flatten + l.bits group

/-- Inside a group the levels fall with the significance of the bits, and bits of one significance
stand side by side in the order of their slots. -/
structure Aligned (l : Layout) (m : Manager) (groups : List (List Nat)) : Prop where
  order : ∀ group ∈ groups, ∀ slot ∈ group, ∀ slot' ∈ group, ∀ b b' level level',
    l.Stands m slot b level → l.Stands m slot' b' level' →
      (level < level' ↔ b' < b ∨ b' = b ∧ group.idxOf slot < group.idxOf slot')
  adjacent : ∀ group ∈ groups, ∀ slot ∈ group, ∀ slot' ∈ group, ∀ b first last,
    l.Stands m slot b first → l.Stands m slot' b last →
      ∀ level, first ≤ level → level ≤ last → ∃ slot'' ∈ group, l.Stands m slot'' b level

section Placed

variable {l : Layout} {m : Manager} (h : l.Sound m) {groups : List (List Nat)}

include h

/-- **A sound layout whose variables are arranged is placed**, in either direction. -/
theorem Sound.placed {reverse : Bool}
    (horder : Order.ofList m.numVars (arrange l.slots reverse groups) = .ok m.order) :
    l.Placed m groups l.sizes := by
  obtain ⟨hsound, hsize, _, _⟩ := Order.sound_ofList horder
  have hlen := congrArg List.length h.widths
  rw [List.length_map, List.length_map] at hlen
  refine ⟨hlen, fun _ _ => h.width_eq_clog, fun _ => h.vars_eq, h.flat,
    fun _ _ => hsound.levelOf_eq_ok_iff, fun v => ⟨?_, fun hv => ?_⟩,
    fun level => ⟨?_, fun hl => ?_⟩, fun above group below hgroups level => ?_⟩
  · rintro ⟨level, hlevel⟩
    obtain ⟨hv, hle⟩ := hsound.allocated_of_levelOf hlevel
    exact ⟨Nat.one_le_iff_ne_zero.mpr hv, hle⟩
  · exact ⟨_, hsound.levelOf_eq ⟨Nat.one_le_iff_ne_zero.mp hv.1, hv.2⟩⟩
  · rintro ⟨v, hv⟩
    exact hsize ▸ hsound.lt_size_of_levelOf (hsound.levelOf_eq_ok_iff.mpr hv)
  · obtain ⟨v, _, _, hv⟩ := hsound.exists_levelAt hl
    exact ⟨v, hv⟩
  · simp only [exists_stands_iff]
    constructor
    · rintro ⟨slot, hslot, v, hv, hlevel⟩
      obtain ⟨i, hi⟩ := List.mem_iff_getElem?.mp
        ((mem_dealGroup reverse).mpr ⟨slot, hslot, hv⟩)
      have hlt := (List.getElem?_eq_some_iff.mp hi).1
      rw [length_dealGroup] at hlt
      have hplace := (levelOf_eq_ok_iff horder).mpr
        (hgroups ▸ getElem?_arrange reverse above below hi)
      obtain rfl := Except.ok.inj (hplace.symm.trans hlevel)
      omega
    · rintro ⟨hle, hlt⟩
      obtain ⟨i, rfl⟩ := Nat.exists_eq_add_of_le hle
      have hi : i < (dealGroup l.slots reverse group).length := by
        rw [length_dealGroup]
        omega
      obtain ⟨slot, hslot, hv⟩ := (mem_dealGroup reverse).mp (List.getElem_mem hi)
      refine ⟨slot, hslot, _, hv, (levelOf_eq_ok_iff horder).mpr ?_⟩
      rw [hgroups]
      exact getElem?_arrange reverse above below (List.getElem?_eq_getElem hi)

end Placed

section Directions

variable {l : Layout} {m : Manager} {groups above below : List (List Nat)} {group : List Nat}

/-- Bits that are not reversed stand the higher the more significant they are. -/
theorem eq_place_of_stands
    (horder : Order.ofList m.numVars (arrange l.slots false groups) = .ok m.order)
    (hgroups : groups = above ++ group :: below) {slot b level : Nat} (hslot : slot ∈ group)
    (hstands : l.Stands m slot b level) :
    b < l.width slot ∧ level = l.bits above.flatten + l.place group slot b := by
  obtain ⟨v, hv, hlevel⟩ := hstands
  refine ⟨?_, Except.ok.inj (hlevel.symm.trans (levelOf_upward horder hgroups hslot hv))⟩
  rw [← l.length_upward false slot]
  exact (List.getElem?_eq_some_iff.mp hv).1

/-- **Where the bits are not reversed they are aligned.** -/
theorem Sound.aligned (h : l.Sound m)
    (horder : Order.ofList m.numVars (arrange l.slots false groups) = .ok m.order) :
    l.Aligned m groups := by
  have horders : ∀ group ∈ groups, ∀ slot ∈ group, ∀ slot' ∈ group, ∀ b b' level level',
      l.Stands m slot b level → l.Stands m slot' b' level' →
        (level < level' ↔ b' < b ∨ b' = b ∧ group.idxOf slot < group.idxOf slot') := by
    intro group hgroup slot hslot slot' hslot' b b' level level' hstands hstands'
    obtain ⟨above, below, hgroups⟩ := List.append_of_mem hgroup
    obtain ⟨hb, rfl⟩ := eq_place_of_stands horder hgroups hslot hstands
    obtain ⟨hb', rfl⟩ := eq_place_of_stands horder hgroups hslot' hstands'
    rw [Nat.add_lt_add_iff_left]
    exact place_lt_iff hslot hb hslot' hb'
  refine ⟨horders, fun group hgroup slot hslot slot' hslot' b first last hfirst hlast level hle
    hle' => ?_⟩
  obtain ⟨above, below, hgroups⟩ := List.append_of_mem hgroup
  have hband := (h.placed horder).bands above group below hgroups
  -- a level between two bits of the group is that of a bit of the group
  obtain ⟨slot'', hslot'', b'', hstands⟩ := (hband level).mpr
    ⟨((hband first).mp ⟨slot, hslot, b, hfirst⟩).1.trans hle,
      Nat.lt_of_le_of_lt hle' ((hband last).mp ⟨slot', hslot', b, hlast⟩).2⟩
  have hbelow : ¬ b < b'' := fun hlt => Nat.not_lt.mpr hle
    ((horders group hgroup slot'' hslot'' slot hslot _ _ _ _ hstands hfirst).mpr (.inl hlt))
  have habove : ¬ b'' < b := fun hlt => Nat.not_lt.mpr hle'
    ((horders group hgroup slot' hslot' slot'' hslot'' _ _ _ _ hlast hstands).mpr (.inl hlt))
  obtain rfl : b'' = b := Nat.le_antisymm (Nat.le_of_not_lt hbelow) (Nat.le_of_not_lt habove)
  exact ⟨slot'', hslot'', hstands⟩

/-- From the lowest bit up the levels of a slot are those of its places. -/
theorem map_levelAt_upward (h : l.Sound m) {reverse : Bool}
    (horder : Order.ofList m.numVars (arrange l.slots reverse groups) = .ok m.order)
    (hgroups : groups = above ++ group :: below) {slot : Nat} (hslot : slot ∈ group) :
    (l.upward reverse slot).map m.order.levelAt =
      (List.range (l.width slot)).map fun b => l.bits above.flatten + l.place group slot b := by
  have hsound := (Order.sound_ofList horder).1
  refine List.ext_getElem (by simp [length_upward]) fun b hb _ => ?_
  rw [List.length_map] at hb
  have hplace := levelOf_upward horder hgroups hslot (List.getElem?_eq_getElem hb)
  have hv := h.allocated_of_mem_vars (mem_upward.mp (List.getElem_mem hb))
  rw [List.getElem_map, List.getElem_map, List.getElem_range]
  exact Except.ok.inj ((hsound.levelOf_eq hv).symm.trans hplace)

/-- **Reversed bits have the levels of the others in the opposite order.** -/
theorem levels_reverse {l' : Layout} {m' : Manager} (h : l.Sound m) (h' : l'.Sound m')
    (hsizes : l.sizes = l'.sizes)
    (horder : Order.ofList m.numVars (arrange l.slots false groups) = .ok m.order)
    (horder' : Order.ofList m'.numVars (arrange l'.slots true groups) = .ok m'.order)
    {slot : Nat} (hslot : slot ∈ groups.flatten) :
    ∃ levels, l.levels m slot = .ok levels ∧ l'.levels m' slot = .ok levels.reverse := by
  obtain ⟨group, hgroup, hmem⟩ := List.mem_flatten.mp hslot
  obtain ⟨above, below, hgroups⟩ := List.append_of_mem hgroup
  have hwidth : l.width = l'.width := funext fun slot => by
    rw [width_eq_getD, width_eq_getD, h.widths, h'.widths, hsizes]
  have hlevels := map_levelAt_upward h horder hgroups hmem
  have hlevels' := map_levelAt_upward h' horder' hgroups hmem
  simp only [bits, place, hwidth] at hlevels hlevels'
  have hmirror : (l'.vars slot).map m'.order.levelAt =
      ((l.vars slot).map m.order.levelAt).reverse :=
    hlevels'.trans (hlevels.symm.trans List.map_reverse)
  exact ⟨_, h.levels_eq (Order.sound_ofList horder).1 slot,
    hmirror ▸ h'.levels_eq (Order.sound_ofList horder').1 slot⟩

end Directions

/-- **The arrangement of a proper signature is never refused**: a layout is created, or a size has
no width. -/
theorem fault_of_create {m m' : Manager} (h : m.WellFormed) (hnodes : m.numNodes = 1)
    (hvars : m.numVars = 0) {groups : List (List Nat)} {sizes : List Nat} {reverse : Bool}
    (hgroups : groups.flatten.Perm (List.range sizes.length)) {fault : Fault}
    (run : create groups sizes reverse m = .error fault m') : fault = .overflow := by
  by_cases hnarrow : ∀ size ∈ sizes, size ≤ twoPow 63
  · obtain ⟨_, _, hrun, _⟩ := ends_create h hnodes hvars reverse hnarrow hgroups
    rw [hrun] at run
    cases run
  · obtain ⟨size, hsize, hwide⟩ : ∃ size ∈ sizes, ¬ size ≤ twoPow 63 := by
      simpa using hnarrow
    obtain ⟨stopped, hwidths, other, _, hstopped⟩ := mapM_eq_error (f := widthOf)
      ⟨size, hsize, fun _ h => hwide (widthOf_eq_ok h).2⟩
    have hask : Manager.ask (fun _ => sizes.mapM widthOf) m = .error stopped m := by
      rw [Manager.ask, hwidths]
    obtain ⟨rfl, _⟩ := EStateM.Result.error.inj ((bind_eq_error hask).symm.trans run)
    unfold widthOf at hstopped
    split at hstopped
    · exact (Except.error.inj hstopped).symm
    · cases hstopped

end Layout

/-! ## 4. Opening -/

section Opening

variable {cat : Catalog} {env : Environment} {r r' : Relation} {schema : Schema}

/-- The causes for which a described relation cannot be opened: a sizing that no manager has, or a
domain that is too large. -/
def openingFaults : List Fault := [.storageBits, .freeFraction, .cacheBits, .overflow]

theorem fault_of_createManager {tableBits cacheBits : Nat} {minFree : Float} {fault : Fault}
    (run : Manager.create tableBits cacheBits minFree = .error fault) : fault ∈ openingFaults := by
  rcases error_of_bind run with htable | ⟨nodes, _, run⟩
  · unfold Table.create at htable
    split at htable
    · exact Except.error.inj htable ▸ by decide
    · split at htable
      · cases htable
      · exact Except.error.inj htable ▸ by decide
  · rcases error_of_bind run with hcache | ⟨cache, _, run⟩
    · unfold Cache.create at hcache
      split at hcache
      · exact Except.error.inj hcache ▸ by decide
      · cases hcache
    · cases run

/-- **A described relation is prepared for opening, or its sizing or a domain is to blame.** -/
theorem fault_of_prepare (hbound : r.stage = .bound schema) (hproper : schema.signature.Proper)
    (harity : schema.domains.length = schema.signature.arity) {fault : Fault}
    (run : r.prepare cat env = .error fault) : fault ∈ openingFaults := by
  obtain ⟨config, stage⟩ := r
  obtain rfl : stage = .bound schema := hbound
  have hgroups : schema.signature.groups.flatten.Perm (List.range (schema.sizes cat).length) := by
    rw [Schema.sizes, List.length_map, harity]
    exact hproper.groups
  unfold prepare at run
  cases config <;>
  · rcases error_of_bind run with hmanager | ⟨manager, hmanager, run⟩
    · exact fault_of_createManager hmanager
    · obtain ⟨hm, hnodes, horder⟩ := Manager.wellFormed_create hmanager
      have hvars : manager.numVars = 0 := by rw [Manager.numVars, horder]; rfl
      dsimp only at run
      split at run
      · cases run
      · rename_i stopped _ hcreate
        obtain rfl := Except.error.inj run
        obtain rfl := Layout.fault_of_create hm hnodes hvars hgroups hcreate
        decide

/-- What opens a relation over the domains of a catalog. -/
inductive OpeningOver (cat : Catalog) (env : Environment) : {α : Type} → RelationM α → Prop
  | one : OpeningOver cat env (one cat env)
  | zero : OpeningOver cat env (zero cat env)
  | load (files : Files) (folder : Path) : OpeningOver cat env (load cat env files folder)

theorem openAs_of_prepare {p : Prepared} (act : Layout → Op Edge)
    (hact : ∀ l m, m.WellFormed → l.Sound m → Ends (act l) m fun _ m' => m.Next m')
    (hp : r.prepare cat env = .ok p) : ∃ m root, p.manager.Next m ∧
      openAs cat env act r = .ok () (r.withContents p.schema ⟨m, root, p.layout⟩) := by
  obtain ⟨_, hm, hl, _⟩ := sound_prepare hp
  obtain ⟨root, m, run, n⟩ := hact _ _ hm hl
  refine ⟨m, root, n, ?_⟩
  simp only [openAs, hp, run]
  rfl

theorem load_ne_error {files : Files} {folder : Path} {p : Prepared} {failure : Failure}
    (hp : r.prepare cat env = .ok p) : load cat env files folder r ≠ .error failure r' := by
  obtain ⟨_, hm, hl, _⟩ := sound_prepare hp
  intro run
  simp only [load, hp] at run
  split at run
  · cases run
  · split at run
    · cases run
    · cases run
    · rename_i fileVars lines _
      obtain ⟨result, m, hread, _⟩ := ends_readContents hl hm fileVars lines
      rw [hread] at run
      cases result <;> cases run

/-- **What opens a relation only fails where it cannot be prepared**, and gives it the layout that
was prepared or leaves it as it was. -/
theorem OpeningOver.outcome {α : Type} {program : RelationM α} (ho : OpeningOver cat env program)
    (r : Relation) :
    (∃ fault, r.prepare cat env = .error fault ∧ program r = .error (.fault fault) r) ∨
      ∃ p, r.prepare cat env = .ok p ∧ ∃ a r', program r = .ok a r' ∧ (r' = r ∨
        ∃ m root, p.manager.Next m ∧ r' = r.withContents p.schema ⟨m, root, p.layout⟩) := by
  cases hp : r.prepare cat env with
  | error fault =>
      refine .inl ⟨fault, rfl, ?_⟩
      cases ho with
      | one => simp only [Relation.one, openAs, hp]
      | zero => simp only [Relation.zero, openAs, hp]
      | load files folder => simp only [Relation.load, hp]
  | ok p =>
      refine .inr ⟨p, rfl, ?_⟩
      cases ho with
      | one =>
          obtain ⟨m, root, n, run⟩ := openAs_of_prepare Layout.inDomains
            (fun _ _ hm hl => (hl.makes_inDomains hm).mono fun _ _ h => h.1) hp
          exact ⟨_, _, run, .inr ⟨m, root, n, rfl⟩⟩
      | zero =>
          obtain ⟨m, root, n, run⟩ := openAs_of_prepare (fun _ => pure .zero)
            (fun _ _ hm _ => ends_pure (.refl hm)) hp
          exact ⟨_, _, run, .inr ⟨m, root, n, rfl⟩⟩
      | load files folder =>
          rcases load_outcome (r := r) cat env files folder with ⟨failure, run⟩ | ⟨_, _, run⟩ |
            ⟨p', fileVars, lines, root, dropped, m, _, hp', hcontents, run⟩
          · exact absurd run (load_ne_error hp)
          · exact ⟨_, _, run, .inl rfl⟩
          · obtain rfl := Except.ok.inj (hp.symm.trans hp')
            obtain ⟨_, hm, hl, _⟩ := sound_prepare hp
            have n := ((ends_readContents hl hm fileVars lines).of_ok hcontents).1
            exact ⟨_, _, run, .inr ⟨m, root, n, rfl⟩⟩

end Opening

/-! ## 5. Main result -/

/-- A described relation that was reached is opened with these contents. -/
inductive Opens (cat : Catalog) (schema : Schema) (reverse : Bool) : Contents → Prop
  | intro {r r' : Relation} {env : Environment} {α : Type} {program : RelationM α} {a : α}
      {c : Contents} (hr : Reached r) (hbound : r.stage = .bound schema)
      (hreverse : r.direction env = reverse) (ho : OpeningOver cat env program)
      (run : program r = .ok a r') (hopen : r'.stage = .opened schema c) :
      Opens cat schema reverse c

/-- What is opened has a sound layout for the present sizes, and its variables are arranged. -/
theorem Opens.arranged {cat : Catalog} {schema : Schema} {reverse : Bool} {c : Contents}
    (h : Opens cat schema reverse c) : c.layout.Sound c.manager ∧
      c.layout.sizes = schema.sizes cat ∧ Order.ofList c.manager.numVars
        (Layout.arrange c.layout.slots reverse schema.signature.groups) = .ok c.manager.order := by
  obtain ⟨hr, hbound, rfl, ho, run, hopen⟩ := h
  rcases ho.outcome _ with ⟨fault, _, hfails⟩ | ⟨p, hp, _, _, hruns, hcases⟩
  · rw [hfails] at run
    cases run
  · obtain ⟨_, rfl⟩ := EStateM.Result.ok.inj (hruns.symm.trans run)
    rcases hcases with rfl | ⟨m, root, n, rfl⟩
    · rw [hbound] at hopen
      cases hopen
    · obtain ⟨rfl, rfl⟩ := Stage.opened.inj (show Stage.opened p.schema _ = _ from hopen)
      obtain ⟨_, _, hl, hsizes⟩ := sound_prepare hp
      refine ⟨hl.next n, hsizes, ?_⟩
      show Order.ofList m.numVars _ = .ok m.order
      rw [n.numVars_eq, n.2.order]
      exact order_prepare hp

/-- **The bits of a relation are where they should be**, for every signature that was created, all
sizes of its domains and both directions. Opening does not stop at the arrangement of the variables:
only a sizing that no manager has and a domain that is too large can be the cause, and without these
it comes to an answer. The blocks of the slots are all variables, one behind another, and are placed
in levels group by group. Bits that are not reversed are aligned at the least significant ones, and
reversed bits have the same levels in the opposite order. -/
theorem opens_placed {schema : Schema} (hcreated : schema.signature.Created) (cat : Catalog) :
    (∀ (r : Relation) (env : Environment) (α : Type) (program : RelationM α), Reached r →
      r.stage = .bound schema → OpeningOver cat env program →
        (∀ failure r', program r = .error failure r' →
          ∃ fault ∈ openingFaults, failure = .fault fault) ∧
        ((∀ config, r.config = some config → config.Valid) →
          (∀ size ∈ schema.sizes cat, size ≤ twoPow 63) →
            (∃ a r', program r = .ok a r') ∧ ∃ c, Opens cat schema (r.direction env) c)) ∧
    (∀ reverse c, Opens cat schema reverse c →
      c.layout.Placed c.manager schema.signature.groups (schema.sizes cat)) ∧
    (∀ c, Opens cat schema false c → c.layout.Aligned c.manager schema.signature.groups) ∧
    ∀ c c', Opens cat schema false c → Opens cat schema true c' →
      ∀ slot, slot < schema.signature.arity → ∃ levels,
        c.layout.levels c.manager slot = .ok levels ∧
        c'.layout.levels c'.manager slot = .ok levels.reverse := by
  refine ⟨fun r env α program hr hbound ho => ?_, fun reverse c h => ?_, fun c h => ?_,
    fun c c' h h' slot hslot => ?_⟩
  · have harity := hr.sound.arity_of_bound hbound
    rcases ho.outcome r with ⟨fault, hfault, hfails⟩ | ⟨p, hp, a, r₁, hruns, _⟩
    · refine ⟨fun failure r' run => ?_, fun hconfig hnarrow => ?_⟩
      · obtain ⟨rfl, _⟩ := EStateM.Result.error.inj (hfails.symm.trans run)
        exact ⟨fault, fault_of_prepare hbound hcreated.proper harity hfault, rfl⟩
      · obtain ⟨p, hp, _⟩ := exists_prepare env
          ⟨hbound, hcreated.proper, harity, List.forall_mem_map.mp hnarrow, hconfig⟩
        rw [hp] at hfault
        cases hfault
    · refine ⟨fun failure r' run => ?_, fun hconfig hnarrow => ⟨⟨a, r₁, hruns⟩, ?_⟩⟩
      · rw [hruns] at run
        cases run
      · obtain ⟨c, hzero, _⟩ := exists_zero env
          ⟨hbound, hcreated.proper, harity, List.forall_mem_map.mp hnarrow, hconfig⟩
        exact ⟨c, hr, hbound, rfl, .zero, hzero, rfl⟩
  · obtain ⟨hl, hsizes, horder⟩ := h.arranged
    exact hsizes ▸ hl.placed horder
  · obtain ⟨hl, _, horder⟩ := h.arranged
    exact hl.aligned horder
  · obtain ⟨hl, hsizes, horder⟩ := h.arranged
    obtain ⟨hl', hsizes', horder'⟩ := h'.arranged
    refine Layout.levels_reverse hl hl' (hsizes.trans hsizes'.symm) horder horder' ?_
    exact hcreated.proper.groups.mem_iff.mpr (List.mem_range.mpr hslot)

/-- Over domains of three values, one and five, the five bits of two interleaved slots stand in the
first five levels. -/
theorem opens_placed_uneven : ∃ (cat : Catalog) (schema : Schema) (c c' : Contents),
    schema.signature.Created ∧ schema.signature.groups = [[2, 0], [1]] ∧
    schema.sizes cat = [3, 1, 5] ∧ Opens cat schema false c ∧ Opens cat schema true c' ∧
    (∀ level, (∃ slot ∈ [2, 0], ∃ b, c.layout.Stands c.manager slot b level) ↔ level < 5) ∧
    ∃ levels, c.layout.levels c.manager 2 = .ok levels ∧
      c'.layout.levels c'.manager 2 = .ok levels.reverse := by
  let cat : Catalog := ⟨#[.words ⟨"V", fun n => s!"{n}", ⟨#[5, 6, 7], ∅⟩⟩,
    .words ⟨"W", fun n => s!"{n}", ⟨#[1], ∅⟩⟩,
    .words ⟨"X", fun n => s!"{n}", ⟨#[5, 4, 3, 2, 1], ∅⟩⟩]⟩
  let schema : Schema :=
    ⟨"own", ⟨["V0", "W0", "X0"], some "X0xV0_W0", [[2, 0], [1]]⟩, [0, 1, 2]⟩
  have hcreated : schema.signature.Created := ⟨["V0", "W0", "X0"], some "X0xV0_W0", rfl⟩
  obtain ⟨hopening, hplaced, _, hmirrored⟩ := opens_placed hcreated cat
  have hopens : ∀ reverse, ∃ c, Opens cat schema reverse c := fun reverse => by
    have hr : Reached ⟨some ⟨6, 3, 0.2, reverse, .native⟩, .bound schema⟩ :=
      reached_bound rfl rfl (show checkKinds "own" cat 0 _ = _ from rfl)
    exact ((hopening _ [] _ _ hr rfl .zero).2 (fun _ h => Option.some.inj h ▸
      Config.valid_small reverse) (by decide)).2
  obtain ⟨c, h⟩ := hopens false
  obtain ⟨c', h'⟩ := hopens true
  refine ⟨cat, schema, c, c', hcreated, rfl, rfl, h, h', fun level => ?_,
    hmirrored c c' h h' 2 (by decide)⟩
  have hp := hplaced false c h
  have hwide : c.layout.width 2 = 3 := (hp.width 2 5 rfl).trans (by decide)
  have hnarrow : c.layout.width 0 = 2 := (hp.width 0 3 rfl).trans (by decide)
  have hbits : c.layout.bits [2, 0] = 5 := by
    rw [Layout.bits, List.map_cons, List.map_singleton, hwide, hnarrow]
    rfl
  have hband := hp.bands [] [2, 0] [[1]] rfl level
  rw [hbits] at hband
  exact hband.trans ⟨fun h => (Nat.zero_add 5) ▸ h.2, fun h => ⟨Nat.zero_le _, h⟩⟩

end Factbase.Relation
