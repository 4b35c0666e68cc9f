import Factbase.Proofs.Diagram.Profiles

/-!
# The stacks of a walk

A walk keeps the decisions of its current path on two stacks, those that were left through their low
branch and those whose high branch is taken. A stack has its top in front, so that reversed it goes
down from the root.

* `nth m k w`: the call behind `k` others, with the walk that it leaves;
* `Keeps m p P w`: the stacks of the walk are the path that its profile shows;
* `nth_spec`: **the `k`-th call goes on to the `k`-th path, or the walk is at its end**;
* `stacks_current`: **behind every call the stacks are the current path, and they are empty where
  there is none.**
-/

namespace Factbase.Diagram.PathWalk

open Manager Cursor

/-- The answer of the call behind `k` others, and the walk behind it. -/
def nth (m : Manager) : Nat → PathWalk → Except Fault (Option (Array Bit) × PathWalk)
  | 0, w => next m w
  | k + 1, w => do
    let (_, w) ← next m w
    nth m k w

/-- Both stacks, merged by level, are the decisions of a path. The one has those whose level is 0 in
the profile, the other one those whose level is 1; each goes down strictly, and together they have
no more decisions than there are variables. -/
structure Keeps (m : Manager) (p : List (Edge × Bool)) (P : Array Bit) (w : PathWalk) : Prop where
  merged : w.pendingHigh.reverse.merge w.inHigh.reverse (fun e f => m.rank e ≤ m.rank f) =
    p.map (·.1)
  pending : ∀ e, e ∈ w.pendingHigh ↔ e ∈ p.map (·.1) ∧ P[m.rank e]? = some .zero
  active : ∀ e, e ∈ w.inHigh ↔ e ∈ p.map (·.1) ∧ P[m.rank e]? = some .one
  pendingDown : w.pendingHigh.reverse.Pairwise fun e f => m.rank e < m.rank f
  activeDown : w.inHigh.reverse.Pairwise fun e f => m.rank e < m.rank f
  bounded : w.pendingHigh.length + w.inHigh.length ≤ m.numVars

/-! ## 1. The decisions of a path on two stacks -/

section Stacks

variable {p : List (Edge × Bool)}

theorem owing_reverse : (owing p.reverse).reverse = owing p := by
  rw [owing, List.filterMap_reverse, List.reverse_reverse, owing]

theorem taken_reverse : (taken p.reverse).reverse = taken p := by
  rw [taken, List.filterMap_reverse, List.reverse_reverse, taken]

theorem mem_owing_iff {e : Edge} : e ∈ owing p ↔ (e, false) ∈ p := by
  simp [owing]

theorem mem_taken_iff {e : Edge} : e ∈ taken p ↔ (e, true) ∈ p := by
  simp [taken]

theorem owing_sublist : ∀ p : List (Edge × Bool), (owing p).Sublist (p.map (·.1))
  | [] => .slnil
  | (e, false) :: p => (owing_sublist p).cons_cons e
  | (e, true) :: p => (owing_sublist p).cons e

theorem taken_sublist : ∀ p : List (Edge × Bool), (taken p).Sublist (p.map (·.1))
  | [] => .slnil
  | (e, false) :: p => (taken_sublist p).cons e
  | (e, true) :: p => (taken_sublist p).cons_cons e

/-- Every decision is on one of them. -/
theorem owing_append_taken : ∀ p : List (Edge × Bool), (owing p ++ taken p).Perm (p.map (·.1))
  | [] => .nil
  | (e, false) :: p => (owing_append_taken p).cons e
  | (e, true) :: p => List.perm_middle.trans ((owing_append_taken p).cons e)

end Stacks

section Path

variable {m : Manager} (h : m.Founded) {f : Edge} (hf : m.Holds f) {p : List (Edge × Bool)}
  (hp : m.IsPath f p)

include h hf hp

/-- Levels strictly increase along a path. -/
theorem path_down : (p.map (·.1)).Pairwise fun e e' => m.rank e < m.rank e' := by
  induction p generalizing f with
  | nil => exact .nil
  | cons s p ih =>
      obtain ⟨e, b⟩ := s
      obtain ⟨rfl, hnode, hp⟩ := hp
      obtain ⟨hchild, hbelow⟩ := childOf_held h hf hnode b
      refine List.pairwise_cons.mpr ⟨List.forall_mem_map.mpr fun s hs => ?_, ih hchild hp⟩
      exact hbelow.trans_le (isPath_held h hchild hp s hs).2.2

theorem nodup_ranks : ((p.map (·.1)).map m.rank).Nodup :=
  List.pairwise_map.mpr ((path_down h hf hp).imp Nat.ne_of_lt)

/-- A path has no more decisions than there are variables. -/
theorem length_path_le : p.length ≤ m.numVars := by
  have hsub : (p.map (·.1)).map m.rank ⊆ List.range m.numVars := fun l hl => by
    obtain ⟨e, he, rfl⟩ := List.mem_map.mp hl
    obtain ⟨s, hs, rfl⟩ := List.mem_map.mp he
    exact List.mem_range.mpr (rank_of_isPath h hf hp hs).2.2
  have hlen := (List.subperm_of_subset (nodup_ranks h hf hp) hsub).length_le
  rwa [List.length_map, List.length_map, List.length_range] at hlen

/-- **Merged by level, what was owing and what was taken is the path.** -/
theorem merge_owing_taken :
    (owing p).merge (taken p) (fun e f => m.rank e ≤ m.rank f) = p.map (·.1) := by
  have hdown := path_down h hf hp
  have hperm : ((owing p).merge (taken p) fun e f => m.rank e ≤ m.rank f).Perm (p.map (·.1)) :=
    (List.merge_perm_append _).trans (owing_append_taken p)
  have hle : ∀ {es : List Edge}, es.Pairwise (fun e f => m.rank e < m.rank f) →
      es.Pairwise fun e f => decide (m.rank e ≤ m.rank f) = true := fun hes =>
    hes.imp fun hlt => decide_eq_true (Nat.le_of_lt hlt)
  refine hperm.eq_of_pairwise (fun e e' he he' hee' he'e => ?_) (List.pairwise_merge
    (fun a b c hab hbc => ?_) (fun a b => ?_) _ _ (hle (hdown.sublist (owing_sublist p)))
    (hle (hdown.sublist (taken_sublist p)))) (hle hdown)
  · exact List.inj_on_of_nodup_map (nodup_ranks h hf hp) (hperm.mem_iff.mp he) he'
      (Nat.le_antisymm (of_decide_eq_true hee') (of_decide_eq_true he'e))
  · exact decide_eq_true ((of_decide_eq_true hab).trans (of_decide_eq_true hbc))
  · rw [Bool.or_eq_true, decide_eq_true_iff, decide_eq_true_iff]
    exact Nat.le_total _ _

/-- The profile tells how a decision of the path was left. -/
theorem mem_path_iff (b : Bool) (e : Edge) : (e, b) ∈ p ↔
    e ∈ p.map (·.1) ∧ (profileOf m p)[m.rank e]? = some (if b then .one else .zero) := by
  constructor
  · exact fun hs => ⟨List.mem_map_of_mem hs, getElem?_profileOf_of_mem h hf hp hs⟩
  · rintro ⟨he, hbit⟩
    obtain ⟨⟨e, b'⟩, hs, rfl⟩ := List.mem_map.mp he
    rw [getElem?_profileOf_of_mem h hf hp hs] at hbit
    obtain rfl : b' = b := by
      cases b <;> cases b' <;> first | rfl | cases hbit
    exact hs

/-- **A walk at the end of a path has it on its stacks.** -/
theorem On.keeps {w : PathWalk} (hw : On m f w p) : Keeps m p (profileOf m p) w := by
  have hdown := path_down h hf hp
  obtain ⟨root, started, profile, pending, active⟩ := w
  obtain rfl : pending = owing p.reverse := hw.spot.pending
  obtain rfl : active = taken p.reverse := hw.spot.active
  refine ⟨?_, fun e => ?_, fun e => ?_, ?_, ?_, ?_⟩
  · rw [owing_reverse, taken_reverse]
    exact merge_owing_taken h hf hp
  · rw [mem_owing_iff, List.mem_reverse]
    exact mem_path_iff h hf hp false e
  · rw [mem_taken_iff, List.mem_reverse]
    exact mem_path_iff h hf hp true e
  · rw [owing_reverse]
    exact hdown.sublist (owing_sublist p)
  · rw [taken_reverse]
    exact hdown.sublist (taken_sublist p)
  · have hlen := (owing_append_taken p.reverse).length_eq
    rw [List.length_append, List.length_map, List.length_reverse] at hlen
    exact hlen.trans_le (length_path_le h hf hp)

end Path

/-! ## 2. Any number of calls -/

section Calls

variable {m : Manager} (h : m.WellFormed) {root : Edge} (hroot : m.Holds root)

include h hroot

/-- **The `k`-th call goes on to the `k`-th path, or the walk is at its end.** -/
theorem nth_spec : ∀ (k : Nat) {w : PathWalk} {ps : List (List (Edge × Bool))}, Goes m root w ps →
    ∃ a w', nth m k w = .ok (a, w') ∧ a = ps[k]?.map (profileOf m) ∧
      (∀ p, ps[k]? = some p → On m root w' p) ∧ (ps[k]? = none → Over w')
  | 0, w, [], ⟨w', run, hover⟩ => ⟨none, w', run, rfl, fun _ hp => (by cases hp), fun _ => hover⟩
  | 0, w, p :: ps, ⟨w', run, hon, _⟩ =>
      ⟨_, w', run, rfl, fun _ hp => Option.some.inj hp ▸ hon, fun hp => (by cases hp)⟩
  | k + 1, w, [], ⟨w', run, hover⟩ => by
      obtain ⟨a, w'', run', rest⟩ := nth_spec k hover.goes
      refine ⟨a, w'', ?_, rest⟩
      rw [nth, run]
      exact run'
  | k + 1, w, p :: ps, ⟨w', run, hon, hrest⟩ => by
      obtain ⟨a, w'', run', rest⟩ := nth_spec k (hrest ▸ hon.goes h hroot)
      refine ⟨a, w'', ?_, rest⟩
      rw [nth, run]
      exact run'

/-- **The stacks are the current path.** The paths from an edge to true are finitely many. The
`k`-th call comes to an answer, so that the descent in it ends at true. Where there is a `k`-th path
the answer is a profile that shows it, and the stacks of the walk keep that path; behind the last
path the answer is none and both stacks are empty. -/
theorem stacks_current : ∃ ps : List (List (Edge × Bool)),
    (ps.Nodup ∧ ∀ p, p ∈ ps ↔ m.IsPath root p) ∧
    ∀ k, ∃ a w, nth m k (start m root) = .ok (a, w) ∧
      (∀ p, ps[k]? = some p → ∃ P, a = some P ∧ Shows m p P ∧ Keeps m p P w) ∧
      (ps[k]? = none → a = none ∧ w.pendingHigh = [] ∧ w.inHigh = []) := by
  have hf := h.toFounded
  refine ⟨m.paths root, ⟨(paths_ordered hf hroot).imp ne_of_before,
    fun _ => mem_paths_iff hf hroot⟩, fun k => ?_⟩
  obtain ⟨a, w, run, rfl, hon, hover⟩ := nth_spec h hroot k (goes_start h hroot)
  refine ⟨_, w, run, fun p hk => ?_, fun hk => ⟨by rw [hk]; rfl, (hover hk).pending,
    (hover hk).active⟩⟩
  have hp := (mem_paths_iff hf hroot).mp (List.mem_of_getElem? hk)
  exact ⟨profileOf m p, by rw [hk]; rfl, shows_profileOf hf hroot hp, (hon p hk).keeps hf hroot hp⟩

end Calls

/-- The stacks behind every call for a disjunction of two variables. -/
theorem stacks_current_disjunction : ∃ m, Reached m [⟨3⟩, ⟨2⟩, .one, .zero] ∧ m.WellFormed ∧
    m.Holds ⟨3⟩ ∧ ∃ ps : List (List (Edge × Bool)), (ps.Nodup ∧ ∀ p, p ∈ ps ↔ m.IsPath ⟨3⟩ p) ∧
    ∀ k, ∃ a w, nth m k (start m ⟨3⟩) = .ok (a, w) ∧
      (∀ p, ps[k]? = some p → ∃ P, a = some P ∧ Shows m p P ∧ Keeps m p P w) ∧
      (ps[k]? = none → a = none ∧ w.pendingHigh = [] ∧ w.inHigh = []) := by
  obtain ⟨m, r, _, _⟩ := reached_disjunction
  obtain ⟨h, hrefs⟩ := r.wellFormed
  have hroot := hrefs ⟨3⟩ List.mem_cons_self
  exact ⟨m, r, h, hroot, stacks_current h hroot⟩

end Factbase.Diagram.PathWalk
