import Factbase.Proofs.Relation.Editing
import Mathlib.Data.List.Flatten

/-!
# Projections and views

Projecting and narrowing views builds diagrams in the manager of the relation, and does not change
its tuples.

* `vars_sublist`, `sublist_flatten`: the variables of different slots are different;
* `Layout.Sound.makes_slotCube`, `Layout.Sound.isVarSet`: the cube of an index in a slot, and the
  set of a slot's variables;
* `View.On`: the view is one of the relation;
* `View.upholds_selectIndex`, …, `View.upholds_containsIndices`: **what is made of a view of a
  relation is a view of it again, and the relation stays sound.**
-/

namespace Factbase.Relation

open Diagram

/-! ## 1. Projections -/

/-- The variables of the slots, slot by slot. -/
theorem map_vars (l : Layout) : (List.range l.arity).map l.vars = l.slots := by
  refine List.ext_getElem (by simp [Layout.arity]) fun i hi hi' => ?_
  rw [List.getElem_map, List.getElem_range, Layout.vars, List.getElem?_eq_getElem hi']
  rfl

/-- The variables of different slots in order. -/
theorem vars_sublist {l : Layout} {slots : List Nat} (hslots : slots.Sublist (List.range l.arity)) :
    (slots.flatMap l.vars).Sublist l.slots.flatten := by
  rw [← map_vars l, ← List.flatMap_def]
  exact hslots.flatMap _

/-- The variables of one slot. -/
theorem sublist_flatten {l : Layout} {slot : Nat} (hslot : slot < l.arity) :
    (l.vars slot).Sublist l.slots.flatten := by
  rw [← List.flatMap_singleton l.vars slot]
  exact vars_sublist (List.singleton_sublist.mpr (List.mem_range.mpr hslot))

/-- **The cube of an index is true exactly where a slot holds it.** -/
theorem Layout.Sound.makes_slotCube {l : Layout} {m : Manager} (hl : l.Sound m)
    (h : m.WellFormed) {slot index : Nat} (hslot : slot < l.arity)
    (hindex : index < 2 ^ l.width slot) :
    Manager.Makes (Manager.cube (l.literals slot index)) m fun ρ =>
      decide (number ρ (l.vars slot) = index) := by
  have hsub : [l.vars slot].flatten.Sublist l.slots.flatten := by
    rw [List.flatten_singleton]
    exact sublist_flatten hslot
  have hcube := hl.makes_cube h hsub (.cons hindex .nil)
  rw [List.zipWith_cons_cons, List.zipWith_nil_left, List.flatten_singleton] at hcube
  refine hcube.congr fun ρ => decide_eq_decide.mpr ?_
  rw [List.map_singleton, List.singleton_inj]

/-- The edge kept for a slot is the set of its variables. -/
theorem Layout.Sound.isVarSet {l : Layout} {m : Manager} (hl : l.Sound m) {slot : Nat}
    (hslot : slot < l.arity) :
    ∃ vs, vs.Perm (l.vars slot) ∧ m.IsVarSet (l.sets[slot]?.getD .one) vs := by
  refine hl.sets slot _ ?_
  rw [vars, List.getElem?_eq_getElem hslot]
  rfl

theorem proceeds_tuplesOf {l : Layout} {m : Manager} (hl : l.Sound m) (hm : m.WellFormed)
    {root : Edge} (hroot : m.Holds root) {hidden : List Nat}
    (hhidden : hidden.Sublist (List.range l.arity)) {β : Type} {next : Edge → Op β}
    (hnext : ∀ f m', m.Next m' → Manager.Proceeds (next f) m' fun _ _ => True) :
    Manager.Proceeds (do
      let vars ← Manager.varCube (hidden.flatMap l.vars)
      let f ← Manager.project root vars
      next f) m fun _ _ => True := by
  have hsub := vars_sublist hhidden
  have hset := Manager.ends_varCube hm (fun v hv => hl.mem_flatten.mp (hsub.subset hv))
    (hsub.nodup hl.nodup)
  refine (Manager.proceeds_of_ends hset).bind fun vars m₁ n₁ ⟨vs, _, hvs⟩ => ?_
  refine (Manager.makes_project n₁.1 (n₁.holds hroot) hvs).proceeds.bind fun f m₂ n₂ _ => ?_
  exact hnext f m₂ (n₁.trans n₂)

section Projections

variable {i : Relation → Prop} (hi : Lasting i) {r : Relation} (h : i r)

include hi h

theorem upholds_tuplesOf (slots : List Nat) :
    Upholds i (tuplesOf slots) r fun _ _ => True := by
  unfold tuplesOf
  refine (upholds_opening hi h).bind fun parts r' h' _ => ?_
  obtain ⟨schema, root, layout⟩ := parts
  dsimp only
  cases slots.find? (layout.arity ≤ ·) with
  | some slot => exact (upholds_misuse h').bind fun _ _ _ hfalse => hfalse.elim
  | none =>
      refine upholds_onManager hi h' fun schema' c _ hc => ?_
      exact proceeds_tuplesOf hc.layout hc.manager hc.root List.filter_sublist
        fun f m n => Manager.proceeds_ask n.1 fun _ _ => trivial

end Projections

/-! ## 2. Views -/

namespace View

/-- The view is one of the relation, as long as that is open. -/
def On (v : View) (r : Relation) : Prop :=
  ∀ schema c, r.stage = .opened schema c →
    c.manager.Holds v.root ∧ v.visible.length = c.layout.arity

section Views

variable {i : Relation → Prop} (hi : Lasting i) {r : Relation} (h : i r)

include h

theorem upholds_requireSlot {v : View} (slot : Nat) :
    Upholds i (v.requireSlot slot) r fun _ r' =>
      r' = r ∧ slot < v.visible.length := by
  unfold requireSlot
  cases hget : v.visible[slot]? with
  | none => exact upholds_of_error rfl h
  | some visible =>
      cases visible with
      | false => exact upholds_of_error rfl h
      | true => exact upholds_pure h ⟨rfl, (List.getElem?_eq_some_iff.mp hget).1⟩

include hi

variable {v : View} (hv : v.On r)

include hv

/-- A diagram for the view, built over the relation's manager. -/
theorem upholds_narrow {act : Edge → Layout → Op Edge} {visible : List Bool}
    (hvisible : visible.length = v.visible.length)
    (hact : ∀ schema c, r.stage = .opened schema c → c.Sound schema → c.manager.Holds v.root →
      v.visible.length = c.layout.arity →
      Manager.Proceeds (act c.root c.layout) c.manager fun e m => m.Holds e) :
    Upholds i (do return ⟨← onManager act, visible⟩) r fun v' r' => View.On v' r' := by
  have hrun : Upholds i (onManager act) r fun e r' => ∀ schema c,
      r'.stage = .opened schema c → c.manager.Holds e ∧ visible.length = c.layout.arity := by
    refine upholds_onManager hi h fun schema c hopen hc => ?_
    obtain ⟨hroot, harity⟩ := hv schema c hopen
    refine (hact schema c hopen hc hroot harity).mono fun e m _ he schema' c' hopen' => ?_
    obtain ⟨rfl, rfl⟩ := Stage.opened.inj hopen'
    exact ⟨he, hvisible.trans harity⟩
  exact hrun.bind fun e r' h' he => upholds_pure h' he

theorem upholds_selectIndex (cat : Catalog) (slot index : Nat) :
    Upholds i (v.selectIndex cat slot index) r fun v' r' => v'.On r' := by
  refine (upholds_requireSlot h slot).bind fun _ r₁ h₁ ⟨hr₁, hslot⟩ => ?_
  refine (upholds_opening hi h₁).bind fun parts r₂ h₂ ⟨hr₂, _⟩ => ?_
  refine (upholds_orProblem h₂).bind fun index r₃ h₃ ⟨hr₃, _⟩ => ?_
  obtain rfl : r₃ = r := hr₃.trans (hr₂.trans hr₁)
  refine upholds_narrow hi h₃ hv rfl fun schema c _ hc hroot harity => ?_
  refine (Manager.makes_cube hc.manager (hc.layout.cubic ?_)).proceeds.bind fun e m n he =>
    (Manager.makes_conj n.1 (n.holds hroot) he).proceeds
  rw [Layout.literals, bitLiterals_natAbs]
  exact sublist_flatten (harity ▸ hslot)

theorem upholds_select (cat : Catalog) (slot : Nat) (value : Value) :
    Upholds i (v.select cat slot value) r fun v' r' => v'.On r' := by
  refine (upholds_requireSlot h slot).bind fun _ r₁ h₁ ⟨hr₁, _⟩ => ?_
  refine (upholds_opening hi h₁).bind fun parts r₂ h₂ ⟨hr₂, _⟩ => ?_
  refine (upholds_orProblem h₂).bind fun index r₃ h₃ ⟨hr₃, _⟩ => ?_
  obtain rfl : r₃ = r := hr₃.trans (hr₂.trans hr₁)
  exact upholds_selectIndex hi h₃ hv cat slot index

theorem upholds_delete (slot : Nat) :
    Upholds i (v.delete slot) r fun v' r' => v'.On r' := by
  refine (upholds_requireSlot h slot).bind fun _ r₁ h₁ ⟨hr₁, hslot⟩ => ?_
  obtain rfl : r₁ = r := hr₁
  refine upholds_narrow hi h₁ hv List.length_set fun schema c _ hc hroot harity => ?_
  obtain ⟨vs, _, hset⟩ := hc.layout.isVarSet (harity ▸ hslot)
  exact (Manager.makes_project hc.manager hroot hset).proceeds

theorem upholds_selectAndDelete (cat : Catalog) (slot : Nat) (value : Value) :
    Upholds i (v.selectAndDelete cat slot value) r fun v' r' => v'.On r' :=
  (upholds_select hi h hv cat slot value).bind fun _ _ h' hv' => upholds_delete hi h' hv' slot

theorem upholds_selectIndexAndDelete (cat : Catalog) (slot index : Nat) :
    Upholds i (v.selectIndexAndDelete cat slot index) r fun v' r' => v'.On r' :=
  (upholds_selectIndex hi h hv cat slot index).bind fun _ _ h' hv' => upholds_delete hi h' hv' slot

omit hi h hv in
/-- The literals of indices that pass. -/
theorem placed_natAbs {cat : Catalog} {schema : Schema} {layout : Layout}
    {pairs : List (Nat × Nat)} {placed : List (List Int)}
    (hplaced : (pairs.mapM fun (slot, index) => do
      return layout.literals slot (← checkSlot cat schema layout slot index)) = .ok placed) :
    placed.flatten.map Int.natAbs = (pairs.map Prod.fst).flatMap layout.vars := by
  have hall := mapM_eq_ok_iff.mp hplaced
  clear hplaced
  induction hall with
  | nil => rfl
  | cons hhead _ ih =>
      obtain ⟨index, _, hliterals⟩ := ok_of_bind hhead
      obtain rfl := Except.ok.inj hliterals
      rw [List.flatten_cons, List.map_append, ih, Layout.literals, bitLiterals_natAbs,
        List.map_cons, List.flatMap_cons]

theorem upholds_containsIndices (cat : Catalog) (indices : List Nat) :
    Upholds i (v.containsIndices cat indices) r fun _ _ => True := by
  unfold containsIndices
  by_cases hlen : indices.length ≠ v.slots.length
  · rw [if_pos hlen]
    exact (upholds_problem h).bind fun _ _ _ hfalse => hfalse.elim
  · rw [if_neg hlen]
    refine (upholds_opening hi h).bind fun parts r₁ h₁ ⟨hr₁, c, hopen, _, _, hlayout⟩ => ?_
    refine (upholds_orProblem h₁).bind fun placed r₂ h₂ ⟨hr₂, hplaced⟩ => ?_
    obtain rfl : r₂ = r := hr₂.trans hr₁
    refine upholds_onManager hi h₂ fun schema' c' hopen' hc' => ?_
    obtain ⟨hroot, harity⟩ := hv schema' c' hopen'
    have hsame : parts.2.2 = c'.layout := by
      rw [hopen] at hopen'
      obtain ⟨_, rfl⟩ := Stage.opened.inj hopen'
      exact hlayout.symm
    have hnames := placed_natAbs hplaced
    rw [List.map_fst_zip (Nat.le_of_eq (not_not.mp hlen).symm), hsame] at hnames
    have hcubic : c'.manager.Cubic placed.flatten := by
      refine hc'.layout.cubic ?_
      rw [hnames, slots, harity]
      exact vars_sublist List.filter_sublist
    refine (Manager.makes_cube hc'.manager hcubic).proceeds.bind fun e m n he => ?_
    exact (Manager.makes_conj n.1 (n.holds hroot) he).proceeds.bind fun common m' n' _ =>
      Manager.proceeds_pure n'.1 trivial

end Views

end View

end Factbase.Relation
