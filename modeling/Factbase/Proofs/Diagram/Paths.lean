import Factbase.Proofs.Diagram.Canonical

/-!
# Paths to true

A path from an edge to true is the list of its decisions, each with the branch that is taken.

* `paths m e`: the paths from an edge to true, low branches before high ones;
* `mem_paths_iff`: `paths` lists exactly the paths;
* `eval_eq_true_iff`: **an edge is true where a path to true is followed**;
* `paths_ordered`: **of two paths the earlier one leaves the other one through a low branch**, so
  that no assignment follows both.
-/

namespace Factbase.Diagram.Manager

/-- The child of an edge where its variable has a value. -/
def childOf (m : Manager) (e : Edge) (b : Bool) : Edge := if b then m.highOf e else m.lowOf e

/-- The paths from an edge to true, with a bound on their length. -/
def pathsWithin (m : Manager) : Nat → Edge → List (List (Edge × Bool))
  | 0, e => if e = .one then [[]] else []
  | steps + 1, e =>
    if e.isTerminal then
      if e = .one then [[]] else []
    else
      (m.pathsWithin steps (m.lowOf e)).map ((e, false) :: ·) ++
        (m.pathsWithin steps (m.highOf e)).map ((e, true) :: ·)

/-- The paths from an edge to true, low branches before high ones. -/
def paths (m : Manager) (e : Edge) : List (List (Edge × Bool)) := m.pathsWithin e.index e

/-- The decisions lead from an edge to true. -/
def IsPath (m : Manager) : Edge → List (Edge × Bool) → Prop
  | e, [] => e = .one
  | e, (f, b) :: p => f = e ∧ e.isTerminal = false ∧ m.IsPath (m.childOf e b) p

/-- The assignment takes the branches of a path. -/
def Follows (m : Manager) (ρ : Assignment) (p : List (Edge × Bool)) : Prop :=
  ∀ s ∈ p, ρ (m.varOf s.1) = s.2

/-- The first path turns into a low branch where the second one turns into the high branch. -/
def Before (p q : List (Edge × Bool)) : Prop :=
  ∃ shared e p' q', p = shared ++ (e, false) :: p' ∧ q = shared ++ (e, true) :: q'

variable {m : Manager}

theorem paths_one : m.paths .one = [[]] := rfl

theorem paths_zero : m.paths .zero = [] := rfl

section Paths

variable (h : m.Founded) {e : Edge} (he : m.Holds e)

include h he

theorem childOf_held (ht : e.isTerminal = false) (b : Bool) :
    m.Holds (m.childOf e b) ∧ m.rank e < m.rank (m.childOf e b) := by
  cases b with
  | false => exact ⟨h.holds_lowOf he ht, h.rank_lowOf he ht⟩
  | true => exact ⟨h.holds_highOf he ht, h.rank_highOf he ht⟩

/-! ## 1. Listing paths -/

/-- A longer bound changes nothing. -/
theorem pathsWithin_eq : ∀ steps, e.index ≤ steps → m.pathsWithin steps e = m.paths e := by
  refine h.induction (motive := fun e => ∀ steps, e.index ≤ steps →
    m.pathsWithin steps e = m.paths e) (fun e he ht steps _ => ?_)
    (fun e he ht ihl ihh steps hle => ?_) he
  · have hone : ∀ n, m.pathsWithin n e = if e = .one then [[]] else [] := fun n => by
      cases n with
      | zero => rfl
      | succ n => rw [pathsWithin, if_pos ht]
    rw [paths, hone, hone]
  · have hl := h.index_lowOf_lt he ht
    have hh := h.index_highOf_lt he ht
    have hnode : ∀ n, e.index ≤ n + 1 → m.pathsWithin (n + 1) e =
        (m.paths (m.lowOf e)).map ((e, false) :: ·) ++
          (m.paths (m.highOf e)).map ((e, true) :: ·) := fun n hn => by
      rw [pathsWithin, ht, if_neg Bool.false_ne_true, ihl n (by omega), ihh n (by omega)]
    obtain ⟨n, rfl⟩ : ∃ n, steps = n + 1 := ⟨steps - 1, by omega⟩
    obtain ⟨k, hk⟩ : ∃ k, e.index = k + 1 := ⟨e.index - 1, by omega⟩
    rw [hnode n hle]
    show _ = m.pathsWithin e.index e
    rw [hk, hnode k (by omega)]

theorem paths_node (ht : e.isTerminal = false) : m.paths e =
    (m.paths (m.lowOf e)).map ((e, false) :: ·) ++
      (m.paths (m.highOf e)).map ((e, true) :: ·) := by
  rw [← pathsWithin_eq h he (e.index + 1) (Nat.le_succ _), pathsWithin, ht,
    if_neg Bool.false_ne_true,
    pathsWithin_eq h (h.holds_lowOf he ht) _ (h.index_lowOf_lt he ht).le,
    pathsWithin_eq h (h.holds_highOf he ht) _ (h.index_highOf_lt he ht).le]

omit h he in
/-- A leaf has the empty path or none. -/
theorem mem_paths_leaf (ht : e.isTerminal = true) {p : List (Edge × Bool)} :
    p ∈ m.paths e ↔ p = [] ∧ e = .one := by
  rcases Edge.isTerminal_iff.mp ht with rfl | rfl
  · rw [paths_one, List.mem_singleton]
    exact (and_iff_left rfl).symm
  · rw [paths_zero]
    simp [Edge.zero, Edge.one]

theorem mem_paths_node (ht : e.isTerminal = false) {p : List (Edge × Bool)} :
    p ∈ m.paths e ↔ ∃ b p', p' ∈ m.paths (m.childOf e b) ∧ p = (e, b) :: p' := by
  rw [paths_node h he ht, List.mem_append, List.mem_map, List.mem_map, Bool.exists_bool]
  refine or_congr ?_ ?_ <;>
    exact exists_congr fun p' => and_congr_right fun _ => eq_comm

/-- **`paths` lists exactly the paths.** -/
theorem mem_paths_iff {p : List (Edge × Bool)} : p ∈ m.paths e ↔ m.IsPath e p := by
  induction p generalizing e with
  | nil =>
      cases ht : e.isTerminal with
      | true => rw [mem_paths_leaf ht]; exact and_iff_right rfl
      | false =>
          rw [mem_paths_node h he ht]
          refine ⟨fun ⟨_, _, _, hnil⟩ => absurd hnil (List.cons_ne_nil _ _).symm, fun hone => ?_⟩
          rw [show e = .one from hone] at ht
          cases ht
  | cons s p ih =>
      obtain ⟨f, b⟩ := s
      cases ht : e.isTerminal with
      | true =>
          rw [mem_paths_leaf ht]
          exact ⟨fun ⟨hnil, _⟩ => absurd hnil (List.cons_ne_nil _ _),
            fun ⟨_, hno, _⟩ => by rw [ht] at hno; cases hno⟩
      | false =>
          rw [mem_paths_node h he ht, IsPath, ← ih (childOf_held h he ht b).1]
          constructor
          · rintro ⟨b', p', hp', heq⟩
            obtain ⟨hs, rfl⟩ := List.cons.inj heq
            obtain ⟨rfl, rfl⟩ := Prod.mk.inj hs
            exact ⟨rfl, ht, hp'⟩
          · rintro ⟨rfl, _, hp⟩
            exact ⟨b, p, hp, rfl⟩

/-! ## 2. Following paths -/

/-- **An edge is true where a path to true is followed.** -/
theorem eval_eq_true_iff {ρ : Assignment} :
    m.eval ρ e = true ↔ ∃ p ∈ m.paths e, m.Follows ρ p := by
  refine h.induction (motive := fun e => m.eval ρ e = true ↔ ∃ p ∈ m.paths e, m.Follows ρ p)
    (fun e he ht => ?_) (fun e he ht ihl ihh => ?_) he
  · rcases Edge.isTerminal_iff.mp ht with rfl | rfl
    · exact iff_of_true rfl ⟨[], List.mem_singleton_self _, fun s hs => absurd hs List.not_mem_nil⟩
    · refine iff_of_false (by rw [eval_zero]; decide) fun ⟨p, hp, _⟩ => ?_
      rw [paths_zero] at hp
      cases hp
  · have hchild : m.eval ρ e = true ↔
        ∃ p ∈ m.paths (m.childOf e (ρ (m.varOf e))), m.Follows ρ p := by
      rw [h.eval_node he ht]
      cases ρ (m.varOf e) with
      | false => exact ihl
      | true => exact ihh
    rw [hchild]
    constructor
    · rintro ⟨p, hp, hfollows⟩
      exact ⟨_, (mem_paths_node h he ht).mpr ⟨_, p, hp, rfl⟩,
        List.forall_mem_cons.mpr ⟨rfl, hfollows⟩⟩
    · rintro ⟨_, hp, hfollows⟩
      obtain ⟨b, p', hp', rfl⟩ := (mem_paths_node h he ht).mp hp
      obtain ⟨hb, hfollows⟩ := List.forall_mem_cons.mp hfollows
      exact ⟨p', by rw [show ρ (m.varOf e) = b from hb]; exact hp', hfollows⟩

omit h he in
theorem Before.cons {p q : List (Edge × Bool)} (h : Before p q) (s : Edge × Bool) :
    Before (s :: p) (s :: q) := by
  obtain ⟨shared, f, p', q', rfl, rfl⟩ := h
  exact ⟨s :: shared, f, p', q', rfl, rfl⟩

/-- **Of two paths the earlier one leaves the other one through a low branch.** -/
theorem paths_ordered : (m.paths e).Pairwise Before := by
  refine h.induction (motive := fun e => (m.paths e).Pairwise Before) (fun e he ht => ?_)
    (fun e he ht ihl ihh => ?_) he
  · rcases Edge.isTerminal_iff.mp ht with rfl | rfl
    · exact List.pairwise_singleton _ _
    · exact List.Pairwise.nil
  · rw [paths_node h he ht]
    refine List.pairwise_append.mpr ⟨?_, ?_, ?_⟩
    · exact List.pairwise_map.mpr (ihl.imp fun hb => hb.cons _)
    · exact List.pairwise_map.mpr (ihh.imp fun hb => hb.cons _)
    · intro p hp q hq
      obtain ⟨p', _, rfl⟩ := List.mem_map.mp hp
      obtain ⟨q', _, rfl⟩ := List.mem_map.mp hq
      exact ⟨[], e, p', q', rfl, rfl⟩

omit h he in
/-- No assignment follows two paths. -/
theorem Before.not_follows {p q : List (Edge × Bool)} (h : Before p q) {ρ : Assignment}
    (hp : m.Follows ρ p) : ¬ m.Follows ρ q := fun hq => by
  obtain ⟨shared, f, p', q', rfl, rfl⟩ := h
  have hlow := hp (f, false) (List.mem_append_right _ List.mem_cons_self)
  have hhigh := hq (f, true) (List.mem_append_right _ List.mem_cons_self)
  rw [show ρ (m.varOf f) = false from hlow] at hhigh
  cases hhigh

end Paths

end Factbase.Diagram.Manager
