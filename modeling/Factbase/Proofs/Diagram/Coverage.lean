import Factbase.Proofs.Diagram.Counting
import Factbase.Proofs.Diagram.Cursors
import Factbase.Proofs.Diagram.Walking

/-!
# Profiles cover the satisfying assignments

* `bitAt_of_isPath`, `exists_of_bitAt`: the profile of a path holds its decisions, and nothing else;
* `Tests`: the levels that the paths from an edge ask for; where its values depend on some variables
  only, these are levels of theirs (`tests_of_dependsOn`);
* `spread`, `gather`: an assignment of the levels as one of the variables, and back;
* `mem_assignments_iff`, `nodup_assignments`: **where all levels that are asked for are cared for,
  the fillings of the profiles are the satisfying assignments of the care levels, each once**;
* `length_assignments_le`: there are at most as many as settings of all variables.
-/

namespace Factbase.Diagram.Cursor

open Manager PathWalk

/-- An assignment of the levels as one of the variables. -/
def spread (m : Manager) (a : Array Bit) : Assignment := fun v =>
  decide (a[m.order.levelAt v]? = some .one)

/-- An assignment of the variables as one of the care levels. -/
def gather (m : Manager) (care : List Nat) (ρ : Assignment) : Array Bit :=
  (Array.range m.numVars).map fun l =>
    if l ∈ care then (if ρ ((m.order.var? l).getD 0) then .one else .zero) else .free

/-- The care levels have a bit, and the others are free. -/
def Filled (m : Manager) (care : List Nat) (a : Array Bit) : Prop :=
  a.size = m.numVars ∧ ∀ l < m.numVars,
    if l ∈ care then a[l]? = some .zero ∨ a[l]? = some .one else a[l]? = some .free

/-- The paths from an edge ask for levels of a list only. -/
def Tests (m : Manager) (levels : List Nat) (e : Edge) : Prop :=
  ∀ p ∈ m.paths e, ∀ s ∈ p, m.rank s.1 ∈ levels

/-- The assignments that the paths from an edge allow, path by path. -/
def assignments (m : Manager) (care : List Nat) (e : Edge) : List (Array Bit) :=
  (m.paths e).flatMap fun p => fillings care (profileOf m p)

variable {m : Manager}

/-! ## 1. The profile of a path -/

section Profiles

variable (h : m.Founded)

include h

/-- The decisions of a path stand at increasing levels. -/
theorem isPath_held : ∀ {p : List (Edge × Bool)} {e : Edge}, m.Holds e → m.IsPath e p →
    ∀ s ∈ p, m.Holds s.1 ∧ s.1.isTerminal = false ∧ m.rank e ≤ m.rank s.1
  | [], _, _, _, _, hs => absurd hs List.not_mem_nil
  | (f, b) :: p, e, he, ⟨hf, ht, hp⟩, s, hs => by
      subst hf
      obtain ⟨hchild, hbelow⟩ := childOf_held h he ht b
      rcases List.mem_cons.mp hs with rfl | hs
      · exact ⟨he, ht, le_rfl⟩
      · obtain ⟨hs₁, hs₂, hs₃⟩ := isPath_held hchild hp s hs
        exact ⟨hs₁, hs₂, hbelow.le.trans hs₃⟩

/-- The profile holds the decisions. -/
theorem bitAt_of_isPath : ∀ {p : List (Edge × Bool)} {e : Edge}, m.Holds e → m.IsPath e p →
    ∀ s ∈ p, bitAt m p (m.rank s.1) = if s.2 then .one else .zero
  | [], _, _, _, _, hs => absurd hs List.not_mem_nil
  | (f, b) :: p, e, he, ⟨hf, ht, hp⟩, s, hs => by
      subst hf
      obtain ⟨hchild, hbelow⟩ := childOf_held h he ht b
      have hlower : ∀ s ∈ p, m.rank f < m.rank s.1 := fun s hs =>
        hbelow.trans_le (isPath_held h hchild hp s hs).2.2
      rcases List.mem_cons.mp hs with rfl | hs
      · exact bitAt_cons_self fun s hs => Nat.ne_of_gt (hlower s hs)
      · rw [bitAt_cons_of_ne (Nat.ne_of_lt (hlower s hs))]
        exact bitAt_of_isPath hchild hp s hs

end Profiles

/-- The profile holds nothing else. -/
theorem exists_of_bitAt {p : List (Edge × Bool)} {l : Nat} (hl : bitAt m p l ≠ .free) :
    ∃ s ∈ p, m.rank s.1 = l := by
  by_contra hnone
  exact hl (bitAt_free fun s hs heq => hnone ⟨s, hs, heq⟩)

/-- A level that the profile says nothing about is not asked for. -/
theorem bitAt_eq_free_iff (h : m.Founded) {p : List (Edge × Bool)} {e : Edge} (he : m.Holds e)
    (hp : m.IsPath e p) {l : Nat} : bitAt m p l = .free ↔ ∀ s ∈ p, m.rank s.1 ≠ l := by
  constructor
  · rintro hfree s hs rfl
    rw [bitAt_of_isPath h he hp s hs] at hfree
    cases hs2 : s.2 <;> rw [hs2] at hfree <;> cases hfree
  · exact bitAt_free

/-- **An edge asks for levels of the variables that its values depend on.** -/
theorem tests_of_dependsOn (h : m.WellFormed) {V : Finset Nat} {levels : List Nat}
    (hlevels : ∀ v ∈ V, m.order.levelAt v ∈ levels) {e : Edge} (he : m.Holds e)
    (hd : m.DependsOn V e) : Tests m levels e := by
  have hpath : ∀ {p : List (Edge × Bool)} {e : Edge}, m.Holds e → m.DependsOn V e →
      m.IsPath e p → ∀ s ∈ p, m.rank s.1 ∈ levels := by
    intro p
    induction p with
    | nil => exact fun _ _ _ s hs => absurd hs List.not_mem_nil
    | cons step p ih =>
        obtain ⟨f, b⟩ := step
        rintro e he hd ⟨rfl, ht, hp⟩
        have hchild := (childOf_held h.toFounded he ht b).1
        have hdb : m.DependsOn V (m.childOf f b) := by
          cases b with
          | false => exact (hd.children h he ht).1
          | true => exact (hd.children h he ht).2
        refine List.forall_mem_cons.mpr ⟨?_, ih hchild hdb hp⟩
        rw [rank_of_not_terminal ht]
        exact hlevels _ (hd.varOf_mem h he ht)
  exact fun p hp => hpath he hd ((mem_paths_iff h.toFounded he).mp hp)

/-! ## 2. Assignments of the levels -/

theorem getElem?_gather (care : List Nat) (ρ : Assignment) {l : Nat} (hl : l < m.numVars) :
    (gather m care ρ)[l]? = some (if l ∈ care then
      (if ρ ((m.order.var? l).getD 0) then .one else .zero) else .free) := by
  rw [gather, Array.getElem?_map, Array.getElem?_range, if_pos hl]
  rfl

theorem filled_gather (care : List Nat) (ρ : Assignment) : Filled m care (gather m care ρ) := by
  refine ⟨by rw [gather, Array.size_map, Array.size_range], fun l hl => ?_⟩
  rw [getElem?_gather care ρ hl]
  by_cases hcare : l ∈ care
  · rw [if_pos hcare, if_pos hcare]
    cases ρ ((m.order.var? l).getD 0) <;> simp
  · rw [if_neg hcare, if_neg hcare]

section Levels

variable (h : m.Founded) {care : List Nat}

include h

theorem spread_gather (ρ : Assignment) {v : Nat} (hv : m.order.Allocated v)
    (hcare : m.order.levelAt v ∈ care) : spread m (gather m care ρ) v = ρ v := by
  rw [spread, getElem?_gather care ρ (h.order.levelAt_lt hv), if_pos hcare,
    h.order.var?_levelAt hv, Option.getD_some]
  cases ρ v <;> simp

/-- An assignment of the care levels is determined by the values of their variables. -/
theorem eq_of_spread_eq {a b : Array Bit} (ha : Filled m care a) (hb : Filled m care b)
    (same : ∀ v, m.order.Allocated v → m.order.levelAt v ∈ care → spread m a v = spread m b v) :
    a = b := by
  refine Array.ext_getElem? fun l => ?_
  by_cases hl : l < m.numVars
  · obtain ⟨v, hv, rfl, _⟩ := h.order.exists_levelAt hl
    have ha := ha.2 _ hl
    have hb := hb.2 _ hl
    by_cases hcare : m.order.levelAt v ∈ care
    · have hsame := decide_eq_decide.mp (same v hv hcare)
      rw [if_pos hcare] at ha hb
      rcases ha with ha | ha <;> rcases hb with hb | hb <;> rw [ha, hb] at hsame ⊢ <;>
        simp at hsame
    · rw [if_neg hcare] at ha hb
      rw [ha, hb]
  · rw [Array.getElem?_eq_none (by rw [ha.1]; omega), Array.getElem?_eq_none (by rw [hb.1]; omega)]

end Levels

/-! ## 3. Fillings of paths -/

section Fillings

variable (h : m.Founded) {care : List Nat} (hcare : ∀ l ∈ care, l < m.numVars) {e : Edge}
  (he : m.Holds e) (htests : Tests m care e) {a : Array Bit}

include h he htests

/-- The bit of a decision in the profile, and in an assignment that follows the path. -/
theorem follows_iff {p : List (Edge × Bool)} (hp : p ∈ m.paths e) (ha : Filled m care a) :
    m.Follows (spread m a) p ↔ ∀ s ∈ p, a[m.rank s.1]? = some (bitAt m p (m.rank s.1)) := by
  have hpath := (mem_paths_iff h he).mp hp
  refine forall₂_congr fun s hs => ?_
  obtain ⟨hheld, hnode, _⟩ := isPath_held h he hpath s hs
  have hbits := ha.2 _ (h.rank_lt hheld hnode)
  rw [if_pos (htests p hp s hs)] at hbits
  rw [bitAt_of_isPath h he hpath s hs, spread, ← rank_of_not_terminal hnode]
  rcases hbits with hbit | hbit <;> rw [hbit] <;> cases s.2 <;> simp

include hcare

/-- **The fillings of a path are the assignments of the care levels that follow it.** -/
theorem mem_fillings_path_iff {p : List (Edge × Bool)} (hp : p ∈ m.paths e) :
    a ∈ fillings care (profileOf m p) ↔ Filled m care a ∧ m.Follows (spread m a) p := by
  have hpath := (mem_paths_iff h he).mp hp
  have hrank : ∀ s ∈ p, m.rank s.1 < m.numVars := fun s hs => hcare _ (htests p hp s hs)
  -- off the care levels the profile says nothing
  have hoff : ∀ l, l ∉ care → bitAt m p l = .free := fun l hl =>
    (bitAt_eq_free_iff h he hpath).mpr fun s hs hsame => hl (hsame ▸ htests p hp s hs)
  rw [mem_fillings_iff fun l hl => by rw [size_profileOf]; exact hcare l hl, size_profileOf]
  constructor
  · rintro ⟨hsize, hfree, hkept⟩
    have hbound : ∀ s ∈ p, a[m.rank s.1]? = some (bitAt m p (m.rank s.1)) := fun s hs => by
      rw [hkept _ fun hfree => ?_, getElem?_profileOf (hrank s hs)]
      rw [getElem?_profileOf (hrank s hs)] at hfree
      exact (bitAt_eq_free_iff h he hpath).mp (Option.some.inj hfree.2) s hs rfl
    have hfilled : Filled m care a := by
      refine ⟨hsize, fun l hl => ?_⟩
      by_cases hmem : l ∈ care
      · rw [if_pos hmem]
        by_cases hl' : bitAt m p l = .free
        · exact hfree l hmem (by rw [getElem?_profileOf hl, hl'])
        · obtain ⟨s, hs, rfl⟩ := exists_of_bitAt hl'
          rw [hbound s hs, bitAt_of_isPath h he hpath s hs]
          cases s.2 <;> simp
      · rw [if_neg hmem, hkept l fun hcared => hmem hcared.1, getElem?_profileOf hl, hoff l hmem]
    exact ⟨hfilled, (follows_iff h he htests hp hfilled).mpr hbound⟩
  · rintro ⟨hfilled, hfollows⟩
    have hbound := (follows_iff h he htests hp hfilled).mp hfollows
    refine ⟨hfilled.1, fun l hl _ => ?_, fun l hl => ?_⟩
    · have hbits := hfilled.2 l (hcare l hl)
      rwa [if_pos hl] at hbits
    · by_cases hlt : l < m.numVars
      · rw [getElem?_profileOf hlt] at hl ⊢
        by_cases hmem : l ∈ care
        · obtain ⟨s, hs, rfl⟩ := exists_of_bitAt fun hfree => hl ⟨hmem, congrArg some hfree⟩
          exact hbound s hs
        · have hbits := hfilled.2 l hlt
          rw [if_neg hmem] at hbits
          rw [hbits, hoff l hmem]
      · rw [Array.getElem?_eq_none (by rw [hfilled.1]; omega),
          Array.getElem?_eq_none (by rw [size_profileOf]; omega)]

/-- **The fillings of all paths are the assignments of the care levels that satisfy the edge.** -/
theorem mem_assignments_iff :
    a ∈ assignments m care e ↔ Filled m care a ∧ m.eval (spread m a) e = true := by
  have hfillings := fun p (hp : p ∈ m.paths e) =>
    mem_fillings_path_iff h hcare he htests hp (a := a)
  rw [assignments, List.mem_flatMap, eval_eq_true_iff h he, ← exists_and_left]
  exact exists_congr fun p =>
    ⟨fun ⟨hp, ha⟩ => ⟨((hfillings p hp).mp ha).1, hp, ((hfillings p hp).mp ha).2⟩,
    fun ⟨hfilled, hp, hfollows⟩ => ⟨hp, (hfillings p hp).mpr ⟨hfilled, hfollows⟩⟩⟩

/-- **None of them comes twice.** -/
theorem nodup_assignments : (assignments m care e).Nodup := by
  rw [assignments, List.nodup_flatMap]
  refine ⟨fun p _ => nodup_fillings fun l hl => by rw [size_profileOf]; exact hcare l hl, ?_⟩
  refine (paths_ordered h he).imp_of_mem fun {p q} hp hq hbefore a ha ha' => ?_
  exact hbefore.not_follows ((mem_fillings_path_iff h hcare he htests hp).mp ha).2
    ((mem_fillings_path_iff h hcare he htests hq).mp ha').2

/-- There are at most as many as settings of all variables. -/
theorem length_assignments_le : (assignments m care e).length ≤ bound m := by
  have hmem := fun {a} => mem_assignments_iff h hcare he htests (a := a)
  have hinj : ((assignments m care e).map
      fun a (i : Fin m.numVars) => spread m a (i + 1)).Nodup := by
    refine (nodup_assignments h hcare he htests).map_on fun a ha b hb same => ?_
    refine eq_of_spread_eq h (hmem.mp ha).1 (hmem.mp hb).1 fun v hv _ => ?_
    have hlt : v - 1 < m.numVars := Nat.sub_one_lt_of_le (Nat.pos_of_ne_zero hv.1) hv.2
    have hsame := congrFun same ⟨v - 1, hlt⟩
    rwa [show v - 1 + 1 = v from Nat.succ_pred_eq_of_ne_zero hv.1] at hsame
  have hcard := hinj.length_le_card
  rwa [List.length_map, Fintype.card_fun, Fintype.card_bool, Fintype.card_fin] at hcard

end Fillings

end Factbase.Diagram.Cursor
