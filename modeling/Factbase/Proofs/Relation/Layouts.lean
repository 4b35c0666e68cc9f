import Factbase.Proofs.Diagram.Cubes
import Factbase.Relation.Layout
import Mathlib.Algebra.GroupWithZero.Nat

/-!
# Sound layouts

* `Layout.Sound l m`: the slots' blocks are, one behind another, all variables of the manager, no
  block is wider than 63 bits, and the edges kept for them are the sets of their variables;
* `Layout.Sound.next`: a layout stays sound while the manager only grows;
* `ends_complete`: blocks that cover the variables become a sound layout;
* `sound_create`: **every layout that is created is sound**, for any groups, sizes and direction;
* `createOfWords_eq`: as long as the variables are numbers of 31 bits, their sets are those of their
  words.
-/

namespace Factbase.Relation.Layout

open Diagram

/-- What every layout of an open relation is. -/
structure Sound (l : Layout) (m : Manager) : Prop where
  /-- The blocks are consecutive and cover all variables. -/
  flat : l.slots.flatten = List.range' 1 m.numVars
  widths : l.slots.map List.length = l.sizes.map bitsFor
  narrow : ∀ size ∈ l.sizes, size ≤ twoPow 63
  sets : ∀ (slot : Nat) (vars : List Nat), l.slots[slot]? = some vars →
    ∃ vs, vs.Perm vars ∧ m.IsVarSet (l.sets[slot]?.getD .one) vs
  all : ∃ vs, vs.Perm l.slots.flatten ∧ m.IsVarSet l.all vs

/-- The width of a size that has one. -/
theorem widthOf_eq_ok {size width : Nat} (h : widthOf size = .ok width) :
    width = bitsFor size ∧ size ≤ twoPow 63 := by
  unfold widthOf at h
  split at h
  · cases h
  · exact ⟨(Except.ok.inj h).symm, Nat.not_lt.mp (by assumption)⟩

theorem widths_eq_ok {sizes widths : List Nat} (h : sizes.mapM widthOf = .ok widths) :
    widths = sizes.map bitsFor ∧ ∀ size ∈ sizes, size ≤ twoPow 63 := by
  have hall := mapM_eq_ok_iff.mp h
  clear h
  induction hall with
  | nil => exact ⟨rfl, fun _ h => absurd h List.not_mem_nil⟩
  | cons hhead _ ih =>
      obtain ⟨rfl, hle⟩ := widthOf_eq_ok hhead
      refine ⟨by rw [List.map_cons, ih.1], fun size hsize => ?_⟩
      rcases List.mem_cons.mp hsize with rfl | hsize
      · exact hle
      · exact ih.2 size hsize

/-- Widths are small. -/
theorem bitsFor_le {size : Nat} (h : size ≤ twoPow 63) : bitsFor size ≤ 63 :=
  Nat.not_lt.mp fun hlt => Nat.not_lt.mpr h (twoPow_lt_of_lt_bitsFor (by decide) hlt)

/-! ## 1. Reading a sound layout -/

section Reading

variable {l : Layout} {m : Manager} (h : l.Sound m)

include h

theorem Sound.nodup : l.slots.flatten.Nodup := by
  rw [h.flat]
  exact List.nodup_range'

/-- The variables of the slots are those of the manager. -/
theorem Sound.mem_flatten {v : Nat} : v ∈ l.slots.flatten ↔ m.order.Allocated v := by
  rw [h.flat, List.mem_range'_1, Order.Allocated]
  show _ ↔ v ≠ 0 ∧ v ≤ m.numVars
  omega

theorem Sound.allocated {vars : List Nat} (hvars : vars ∈ l.slots) {v : Nat} (hv : v ∈ vars) :
    m.order.Allocated v :=
  h.mem_flatten.mp (List.mem_flatten.mpr ⟨vars, hvars, hv⟩)

theorem Sound.length_le {vars : List Nat} (hvars : vars ∈ l.slots) : vars.length ≤ 63 := by
  have hmem : vars.length ∈ l.sizes.map bitsFor := by
    rw [← h.widths]
    exact List.mem_map.mpr ⟨vars, hvars, rfl⟩
  obtain ⟨size, hsize, heq⟩ := List.mem_map.mp hmem
  rw [← heq]
  exact bitsFor_le (h.narrow size hsize)

theorem Sound.next {m' : Manager} (n : m.Next m') : l.Sound m' where
  flat := by rw [n.numVars_eq]; exact h.flat
  widths := h.widths
  narrow := h.narrow
  sets slot vars hvars := by
    obtain ⟨vs, hperm, hset⟩ := h.sets slot vars hvars
    exact ⟨vs, hperm, n.2.nodes.isVarSet hset⟩
  all := by
    obtain ⟨vs, hperm, hset⟩ := h.all
    exact ⟨vs, hperm, n.2.nodes.isVarSet hset⟩

end Reading

/-! ## 2. Creating a layout -/

/-- A well-formed manager without decisions. -/
def Fresh (m : Manager) : Prop := m.WellFormed ∧ m.numNodes = 1

/-- A block has the variables behind those that are there. -/
theorem ends_block {m : Manager} (h : Fresh m) {width : Nat} (hw : width < twoPow 32) :
    Ends (block width) m fun vars m' => Fresh m' ∧ vars = List.range' (m.numVars + 1) width ∧
      m'.numVars = m.numVars + width := by
  refine ends_bind rfl (ends_pure ⟨⟨?_, h.2⟩, rfl, ?_⟩)
  · exact ((Manager.wellFormed_extendVars h.1 width).of_ok rfl).1
  · show (m.order.extend (width % twoPow 32)).size = m.order.size + width
    rw [Order.size_extend, Nat.mod_eq_of_lt hw]

/-- Blocks behind one another have consecutive variables. -/
theorem ends_blocks {m : Manager} (h : Fresh m) {widths : List Nat}
    (hw : ∀ width ∈ widths, width < twoPow 32) :
    Ends (widths.mapM block) m fun slots m' => Fresh m' ∧ slots.map List.length = widths ∧
      slots.flatten = List.range' (m.numVars + 1) (m'.numVars - m.numVars) := by
  have loop := Ends.mapM (f := block) (i := fun rest slots m' => Fresh m' ∧
      slots.map List.length ++ rest = widths ∧ m.numVars ≤ m'.numVars ∧
      slots.flatten = List.range' (m.numVars + 1) (m'.numVars - m.numVars))
    (fun width rest slots m' ⟨hm, hlen, hle, hflat⟩ => by
      have hmem : width ∈ widths := by
        rw [← hlen]
        exact List.mem_append_right _ List.mem_cons_self
      refine (ends_block hm (hw width hmem)).mono fun vars m'' ⟨hm', hvars, hsize⟩ =>
        ⟨hm', ?_, by omega, ?_⟩
      · rw [List.map_append, List.append_assoc, hvars]
        simpa using hlen
      · rw [List.flatten_append, hflat, hvars, hsize, List.flatten_singleton]
        rw [show m'.numVars + width - m.numVars = (m'.numVars - m.numVars) + width by omega,
          ← List.range'_append_1]
        rw [show m.numVars + 1 + (m'.numVars - m.numVars) = m'.numVars + 1 by omega])
    widths [] m ⟨h, List.nil_append _, Nat.le_refl _, by simp⟩
  refine loop.mono fun slots m' ⟨hm, hlen, _, hflat⟩ => ?_
  rw [List.nil_append] at hlen hflat
  rw [List.append_nil] at hlen
  exact ⟨hm, hlen, hflat⟩

/-- The sets of the slots. -/
theorem ends_sets {m : Manager} (h : m.WellFormed) {slots : List (List Nat)}
    (hv : ∀ vars ∈ slots, (∀ v ∈ vars, m.order.Allocated v) ∧ vars.Nodup) :
    Ends (slots.mapM Manager.varCube) m fun sets m' => m.Next m' ∧
      List.Forall₂ (fun vars e => ∃ vs : List Nat, vs.Perm vars ∧ m'.IsVarSet e vs) slots sets := by
  have loop := Ends.mapM (f := Manager.varCube) (i := fun rest sets m' => m.Next m' ∧
      ∃ done, done ++ rest = slots ∧
        List.Forall₂ (fun vars e => ∃ vs : List Nat, vs.Perm vars ∧ m'.IsVarSet e vs) done sets)
    (fun vars rest sets m' ⟨n, done, hdone, hsets⟩ => by
      obtain ⟨hall, hnodup⟩ := hv vars (by rw [← hdone]; simp)
      refine (Manager.ends_varCube n.1 (by rwa [n.2.order]) hnodup).mono
        fun e m'' ⟨n', vs, hperm, hset⟩ => ⟨n.trans n', done ++ [vars], by simpa using hdone, ?_⟩
      refine List.rel_append ?_ (.cons ⟨vs, hperm, hset⟩ .nil)
      exact hsets.imp fun _ _ ⟨vs, hperm, hset⟩ => ⟨vs, hperm, n'.2.nodes.isVarSet hset⟩)
    slots [] m ⟨.refl h, [], List.nil_append _, .nil⟩
  refine loop.mono fun sets m' ⟨n, done, hdone, hsets⟩ => ⟨n, ?_⟩
  rw [List.append_nil] at hdone
  rw [List.nil_append] at hsets
  rwa [← hdone]

/-- The sets complete a sound layout, whatever order the variables have got. -/
theorem ends_complete {m : Manager} (h : m.WellFormed) {slots : List (List Nat)}
    {sizes : List Nat} (hflat : slots.flatten = List.range' 1 m.numVars)
    (hwidths : slots.map List.length = sizes.map bitsFor)
    (hnarrow : ∀ size ∈ sizes, size ≤ twoPow 63) :
    Ends (do
      let sets ← slots.mapM Manager.varCube
      let all ← Manager.varCube slots.flatten
      return (⟨slots, sets, all, sizes⟩ : Layout)) m fun l m' =>
        m.Next m' ∧ l.Sound m' ∧ l.sizes = sizes ∧ l.slots = slots := by
  have hall : ∀ v ∈ slots.flatten, m.order.Allocated v := fun v hv => by
    rw [hflat, List.mem_range'_1] at hv
    exact ⟨by omega, by show v ≤ m.numVars; omega⟩
  have hnodup : slots.flatten.Nodup := by
    rw [hflat]
    exact List.nodup_range'
  have hblock : ∀ vars ∈ slots, (∀ v ∈ vars, m.order.Allocated v) ∧ vars.Nodup := fun vars hvars =>
    ⟨fun v hv => hall v (List.mem_flatten.mpr ⟨vars, hvars, hv⟩),
      (List.pairwise_flatten.mp hnodup).1 vars hvars⟩
  refine (ends_sets h hblock).bind fun sets m₁ ⟨n₁, hsets⟩ => ?_
  refine (Manager.ends_varCube n₁.1 (by rwa [n₁.2.order]) hnodup).bind
    fun all m₂ ⟨n₂, vs, hperm, hset⟩ => ?_
  refine ends_pure ⟨n₁.trans n₂,
    ⟨?_, hwidths, hnarrow, fun slot vars hget => ?_, vs, hperm, hset⟩, rfl, rfl⟩
  · rw [n₂.numVars_eq, n₁.numVars_eq, hflat]
  · obtain ⟨e, hget', vs, hperm, hset⟩ := exists_of_forall₂ hsets hget
    exact ⟨vs, hperm, by rw [hget']; exact n₂.2.nodes.isVarSet hset⟩

/-- The blocks of slots over sizes that have a width. -/
theorem ends_blocks_bitsFor {m : Manager} (h : Fresh m) (hvars : m.numVars = 0) {sizes : List Nat}
    (hnarrow : ∀ size ∈ sizes, size ≤ twoPow 63) :
    Ends ((sizes.map bitsFor).mapM block) m fun slots m' => Fresh m' ∧
      slots.map List.length = sizes.map bitsFor ∧ slots.flatten = List.range' 1 m'.numVars := by
  refine (ends_blocks h fun width hw => ?_).mono fun slots m' ⟨hm', hlens, hflat⟩ =>
    ⟨hm', hlens, by rwa [hvars, Nat.zero_add, Nat.sub_zero] at hflat⟩
  obtain ⟨size, hsize, rfl⟩ := List.mem_map.mp hw
  exact Nat.lt_of_le_of_lt (bitsFor_le (hnarrow size hsize)) (by decide)

/-- **Every layout that is created is sound**, and its variables stand in the levels that are
arranged for them. -/
theorem sound_create {groups : List (List Nat)} {sizes : List Nat} {reverse : Bool}
    {m m' : Manager} {l : Layout} (h : m.WellFormed) (hnodes : m.numNodes = 1)
    (hvars : m.numVars = 0) (run : create groups sizes reverse m = .ok l m') :
    m'.WellFormed ∧ l.Sound m' ∧ l.sizes = sizes ∧
      Order.ofList m'.numVars (arrange l.slots reverse groups) = .ok m'.order := by
  unfold create at run
  obtain ⟨widths, m₁, hask, run₁⟩ := run_ok_of_bind run
  obtain ⟨hwidths, rfl⟩ := Manager.of_ask_eq hask
  obtain ⟨rfl, hnarrow⟩ := widths_eq_ok hwidths
  obtain ⟨slots, m₂, hslots, run₂⟩ := run_ok_of_bind run₁
  obtain ⟨hm₂, hlens, hflat⟩ := (ends_blocks_bitsFor ⟨h, hnodes⟩ hvars hnarrow).of_ok hslots
  obtain ⟨_, m₃, horder, run₃⟩ := run_ok_of_bind run₂
  obtain ⟨hm₃, hlist, hsize₃⟩ : m₃.WellFormed ∧
      Order.ofList m₂.numVars (arrange slots reverse groups) = .ok m₃.order ∧
      m₃.numVars = m₂.numVars := by
    rcases Manager.wellFormed_setVarOrder hm₂.1 (arrange slots reverse groups) with
      ⟨order, hrun, _, hlist, hwf⟩ | ⟨fault, hrun⟩
    · rw [hrun] at horder
      obtain ⟨_, rfl⟩ := EStateM.Result.ok.inj horder
      exact ⟨hwf, hlist, (Order.sound_ofList hlist).2.1⟩
    · rw [hrun] at horder
      cases horder
  obtain ⟨n, hl, hsizes, hsame⟩ :=
    (ends_complete hm₃ (by rw [hsize₃, hflat]) hlens hnarrow).of_ok run₃
  exact ⟨n.1, hl, hsizes, by rw [n.numVars_eq, n.2.order, hsize₃, hsame, hlist]⟩

/-! ## 3. Sets of words -/

/-- A layout whose sets are built from the words of the variables. -/
def createOfWords (groups : List (List Nat)) (sizes : List Nat) (reverse : Bool) : Op Layout := do
  let widths ← Manager.ask fun _ => sizes.mapM widthOf
  let slots ← widths.mapM block
  Manager.setVarOrder (arrange slots reverse groups)
  let sets ← slots.mapM Manager.varSetOfWords
  let all ← Manager.varSetOfWords slots.flatten
  return ⟨slots, sets, all, sizes⟩

/-- **Words of 31 bits stand for the variables of a layout.** -/
theorem createOfWords_eq {groups : List (List Nat)} {sizes : List Nat} {reverse : Bool}
    {m : Manager} (h : m.WellFormed) (hnodes : m.numNodes = 1) (hvars : m.numVars = 0)
    (hsmall : (sizes.map bitsFor).sum < twoPow 31) :
    createOfWords groups sizes reverse m = create groups sizes reverse m := by
  refine bind_congr_next fun widths m₁ hask => ?_
  obtain ⟨hwidths, rfl⟩ := Manager.of_ask_eq hask
  obtain ⟨rfl, hnarrow⟩ := widths_eq_ok hwidths
  refine bind_congr_next fun slots m₂ hslots => bind_congr_next fun _ m₃ _ => ?_
  obtain ⟨_, hlens, hflat⟩ := (ends_blocks_bitsFor ⟨h, hnodes⟩ hvars hnarrow).of_ok hslots
  have hcount : m₂.numVars = (sizes.map bitsFor).sum := by
    rw [← hlens, ← List.length_flatten, hflat, List.length_range']
  have hall : ∀ v ∈ slots.flatten, v < twoPow 31 := fun v hv => by
    rw [hflat, List.mem_range'_1] at hv
    omega
  have hsets : slots.mapM Manager.varSetOfWords = slots.mapM Manager.varCube :=
    mapM_congr fun vars hvars => Manager.varSetOfWords_eq fun v hv =>
      hall v (List.mem_flatten.mpr ⟨vars, hvars, hv⟩)
  rw [hsets, Manager.varSetOfWords_eq hall]

end Factbase.Relation.Layout
