import Factbase.Proofs.Diagram.Coverage
import Factbase.Proofs.Diagram.Histories

/-!
# Profiles partition the satisfying assignments

What the profiles of a walk say about assignments of the variables, and in which order they come.

* `Agrees m ρ P`: the assignment has the bits of a profile;
* `Shows m p P`: the profile says what a path decides, and nothing else;
* `Precedes P Q`: at the first level where two profiles differ the first one has 0, the other 1;
* `agrees_profileOf_iff`: an assignment agrees with the profile of a path where it follows the path;
* `precedes_of_before`: the profiles of paths come in the order of the paths;
* `walk_partitions`: **the walk shows every path to true once, in order, and an assignment agrees
  with exactly one profile where the edge is true, and with none where it is false.**
-/

namespace Factbase.Diagram.PathWalk

open Manager Cursor

/-- The assignment has the bits of a profile; at a free level it has any value. -/
def Agrees (m : Manager) (ρ : Assignment) (P : Array Bit) : Prop :=
  ∀ l v, m.order.varAt l = .ok v →
    (P[l]? = some .zero → ρ v = false) ∧ (P[l]? = some .one → ρ v = true)

/-- At the first level where the profiles differ the first one has 0 and the second one 1. -/
def Precedes (P Q : Array Bit) : Prop :=
  ∃ l : Nat, (∀ k < l, P[k]? = Q[k]?) ∧ P[l]? = some .zero ∧ Q[l]? = some .one

/-- The profile has the decisions of a path at the levels of their variables, and exactly the levels
whose variables the path does not test are free. -/
structure Shows (m : Manager) (p : List (Edge × Bool)) (P : Array Bit) : Prop where
  size : P.size = m.numVars
  decided : ∀ s ∈ p, ∃ l, m.order.levelOf (m.varOf s.1) = .ok l ∧
    P[l]? = some (if s.2 then Bit.one else Bit.zero)
  free : ∀ l v, m.order.varAt l = .ok v → (P[l]? = some .free ↔ ∀ s ∈ p, m.varOf s.1 ≠ v)

/-! ## 1. Levels and variables -/

section Levels

variable {o : Order} (h : o.Sound) {l v w : Nat}

include h

/-- The variable at a level stands there. -/
theorem levelAt_of_varAt (hv : o.varAt l = .ok v) :
    l < o.size ∧ o.Allocated v ∧ o.levelAt v = l := by
  have hl := Order.lt_size_of_varAt hv
  obtain ⟨w, hw, hlevel, hvar⟩ := h.exists_levelAt hl
  obtain rfl := Except.ok.inj (hvar.symm.trans hv)
  exact ⟨hl, hw, hlevel⟩

/-- A variable stands at the level of another one only where they are the same. -/
theorem levelAt_eq_iff (hv : o.varAt l = .ok v) (hw : o.Allocated w) :
    o.levelAt w = l ↔ w = v := by
  obtain ⟨_, hallocated, rfl⟩ := levelAt_of_varAt h hv
  exact ⟨h.levelAt_inj hw hallocated, fun heq => by rw [heq]⟩

end Levels

/-! ## 2. The profile of a path -/

section Paths

variable {m : Manager} (h : m.Founded) {e : Edge} (he : m.Holds e) {p : List (Edge × Bool)}
  (hp : m.IsPath e p)

include h he

/-- What comes behind a decision of a path is a path from there. -/
theorem isPath_behind {f : Edge} {b : Bool} {p' shared : List (Edge × Bool)}
    (hp : m.IsPath e (shared ++ (f, b) :: p')) : m.Holds f ∧ m.IsPath f ((f, b) :: p') := by
  induction shared generalizing e with
  | nil =>
      obtain rfl : f = e := hp.1
      exact ⟨he, hp⟩
  | cons s shared ih => exact ih (childOf_held h he hp.2.1 s.2).1 hp.2.2

include hp

/-- The decisions of a path stand at levels of their variables. -/
theorem rank_of_isPath {s : Edge × Bool} (hs : s ∈ p) :
    m.order.Allocated (m.varOf s.1) ∧ m.order.levelAt (m.varOf s.1) = m.rank s.1 ∧
      m.rank s.1 < m.numVars := by
  obtain ⟨hheld, hnode, _⟩ := isPath_held h he hp s hs
  exact ⟨h.allocated hheld hnode, (rank_of_not_terminal hnode).symm, h.rank_lt hheld hnode⟩

theorem getElem?_profileOf_of_mem {s : Edge × Bool} (hs : s ∈ p) :
    (profileOf m p)[m.rank s.1]? = some (if s.2 then .one else .zero) := by
  rw [getElem?_profileOf (rank_of_isPath h he hp hs).2.2, bitAt_of_isPath h he hp s hs]

/-- **The profile of a path shows the path.** -/
theorem shows_profileOf : Shows m p (profileOf m p) where
  size := size_profileOf
  decided s hs := by
    obtain ⟨hvar, hlevel, _⟩ := rank_of_isPath h he hp hs
    exact ⟨_, h.order.levelOf_eq hvar, hlevel ▸ getElem?_profileOf_of_mem h he hp hs⟩
  free l v hv := by
    rw [getElem?_profileOf (levelAt_of_varAt h.order hv).1, Option.some.injEq,
      bitAt_eq_free_iff h he hp]
    refine forall₂_congr fun s hs => not_congr ?_
    obtain ⟨hvar, hlevel, _⟩ := rank_of_isPath h he hp hs
    rw [← hlevel, levelAt_eq_iff h.order hv hvar]

/-- **An assignment agrees with the profile of a path where it follows the path.** -/
theorem agrees_profileOf_iff {ρ : Assignment} :
    Agrees m ρ (profileOf m p) ↔ m.Follows ρ p := by
  constructor
  · intro hagrees s hs
    obtain ⟨hvar, hlevel, hlt⟩ := rank_of_isPath h he hp hs
    obtain ⟨w, _, hw, hat⟩ := h.order.exists_levelAt hlt
    obtain rfl := (levelAt_eq_iff h.order hat hvar).mp hlevel
    have hbit := getElem?_profileOf_of_mem h he hp hs
    obtain ⟨hzero, hone⟩ := hagrees _ _ hat
    cases hs2 : s.2 <;> rw [hs2] at hbit
    · exact hzero hbit
    · exact hone hbit
  · intro hfollows l v hv
    obtain ⟨hlt, _, _⟩ := levelAt_of_varAt h.order hv
    -- a bit that is set is that of a decision on the level's variable
    have hset : ∀ b : Bit, b ≠ .free → (profileOf m p)[l]? = some b →
        b = if ρ v then .one else .zero := fun b hb hbit => by
      rw [getElem?_profileOf hlt, Option.some.injEq] at hbit
      obtain ⟨s, hs, rfl⟩ := exists_of_bitAt (hbit ▸ hb)
      obtain ⟨hvar, hlevel, _⟩ := rank_of_isPath h he hp hs
      obtain rfl := (levelAt_eq_iff h.order hv hvar).mp hlevel
      rw [← hbit, bitAt_of_isPath h he hp s hs, hfollows s hs]
    constructor <;> intro hbit <;> have hval := hset _ (by decide) hbit
    · by_contra htrue
      rw [if_pos (Bool.not_eq_false _ ▸ htrue)] at hval
      cases hval
    · by_contra hfalse
      rw [if_neg hfalse] at hval
      cases hval

omit h he hp in
/-- Paths that part are different. -/
theorem ne_of_before {q : List (Edge × Bool)} (hbefore : Before p q) : p ≠ q := by
  obtain ⟨shared, f, p', q', rfl, rfl⟩ := hbefore
  exact fun heq => by cases List.append_cancel_left heq

/-- **The profiles of paths come in the order of the paths.** -/
theorem precedes_of_before {q : List (Edge × Bool)} (hq : m.IsPath e q) (hbefore : Before p q) :
    Precedes (profileOf m p) (profileOf m q) := by
  obtain ⟨shared, f, p', q', rfl, rfl⟩ := hbefore
  have hshared : ∀ {b : Bool} {t : List (Edge × Bool)}, m.IsPath e (shared ++ (f, b) :: t) →
      ∀ k < m.rank f, bitAt m (shared ++ (f, b) :: t) k = bitAt m shared k := fun ht k hk => by
    obtain ⟨hf, hbehind⟩ := isPath_behind h he ht
    exact bitAt_append
      (fun s hs => Nat.ne_of_gt (hk.trans_le (isPath_held h hf hbehind s hs).2.2)) shared
  have hmem : ∀ (b : Bool) (t : List (Edge × Bool)), (f, b) ∈ shared ++ (f, b) :: t := fun b t =>
    List.mem_append_right _ List.mem_cons_self
  have hlt := (rank_of_isPath h he hp (hmem false p')).2.2
  refine ⟨m.rank f, fun k hk => ?_, getElem?_profileOf_of_mem h he hp (hmem false p'),
    getElem?_profileOf_of_mem h he hq (hmem true q')⟩
  rw [getElem?_profileOf (hk.trans hlt), getElem?_profileOf (hk.trans hlt), hshared hp k hk,
    hshared hq k hk]

omit hp in
/-- An assignment follows one path only, which stands at one place. -/
theorem position_unique {q : List (Edge × Bool)} {i j : Nat} (hi : (m.paths e)[i]? = some p)
    (hj : (m.paths e)[j]? = some q) {ρ : Assignment} (hp : m.Follows ρ p) (hq : m.Follows ρ q) :
    i = j := by
  obtain ⟨hilt, rfl⟩ := List.getElem?_eq_some_iff.mp hi
  obtain ⟨hjlt, rfl⟩ := List.getElem?_eq_some_iff.mp hj
  have hordered := List.pairwise_iff_getElem.mp (paths_ordered h he)
  rcases Nat.lt_trichotomy i j with hlt | heq | hgt
  · exact absurd hq ((hordered i j hilt hjlt hlt).not_follows hp)
  · exact heq
  · exact absurd hp ((hordered j i hjlt hilt hgt).not_follows hq)

end Paths

/-! ## 3. Main result -/

/-- **Profiles partition the satisfying assignments, in order.** From an edge of a well-formed
manager the walk gives finitely many profiles, one for every path from the edge to true, and then
none for good. Each of them shows its path: it has a bit for every level, and is free exactly at the
levels whose variables the path does not test. An assignment under which the edge is true agrees
with exactly one of them, any other one with none; and where two of them first differ, the earlier
one has 0 and the later one 1. -/
theorem walk_partitions {m : Manager} (h : m.WellFormed) {e : Edge} (he : m.Holds e) :
    ∃ (ps : List (List (Edge × Bool))) (Ps : List (Array Bit)), Lists (next m) Ps (start m e) ∧
      (ps.Nodup ∧ ∀ p, p ∈ ps ↔ m.IsPath e p) ∧ List.Forall₂ (Shows m) ps Ps ∧
      (∀ ρ, m.eval ρ e = true → ∃! i : Nat, ∃ P, Ps[i]? = some P ∧ Agrees m ρ P) ∧
      (∀ ρ, m.eval ρ e = false → ∀ P ∈ Ps, ¬ Agrees m ρ P) ∧
      Ps.Pairwise Precedes := by
  have hf := h.toFounded
  have hpath : ∀ {p}, p ∈ m.paths e → m.IsPath e p := (mem_paths_iff hf he).mp
  have hagrees : ∀ {p}, p ∈ m.paths e → ∀ ρ, Agrees m ρ (profileOf m p) ↔ m.Follows ρ p :=
    fun hp ρ => agrees_profileOf_iff hf he (hpath hp)
  have hordered := paths_ordered hf he
  refine ⟨m.paths e, (m.paths e).map (profileOf m), lists_start h he,
    ⟨hordered.imp ne_of_before, fun _ => mem_paths_iff hf he⟩, ?_, fun ρ htrue => ?_,
    fun ρ hfalse => ?_, ?_⟩
  · exact List.forall₂_map_right_iff.mpr
      (List.forall₂_same.mpr fun p hp => shows_profileOf hf he (hpath hp))
  · obtain ⟨p, hp, hfollows⟩ := (eval_eq_true_iff hf he).mp htrue
    obtain ⟨i, hi⟩ := List.mem_iff_getElem?.mp hp
    refine ⟨i, ⟨profileOf m p, by rw [List.getElem?_map, hi]; rfl, (hagrees hp ρ).mpr hfollows⟩, ?_⟩
    rintro j ⟨P, hj, hP⟩
    rw [List.getElem?_map] at hj
    obtain ⟨q, hq, rfl⟩ := Option.map_eq_some_iff.mp hj
    exact position_unique hf he hq hi ((hagrees (List.mem_of_getElem? hq) ρ).mp hP) hfollows
  · refine List.forall_mem_map.mpr fun p hp hP => ?_
    have htrue := (eval_eq_true_iff hf he).mpr ⟨p, hp, (hagrees hp ρ).mp hP⟩
    rw [hfalse] at htrue
    cases htrue
  · exact List.pairwise_map.mpr (hordered.imp_of_mem fun hp hq hbefore =>
      precedes_of_before hf he (hpath hp) (hpath hq) hbefore)

/-- The profiles of a disjunction of two variables: one path tests both, the other one the first. -/
theorem walk_partitions_disjunction : ∃ m, Reached m [⟨3⟩, ⟨2⟩, .one, .zero] ∧ m.Holds ⟨3⟩ ∧
    ∃ ps Ps, Lists (next m) Ps (start m ⟨3⟩) ∧
      (ps.Nodup ∧ ∀ p, p ∈ ps ↔ m.IsPath ⟨3⟩ p) ∧ List.Forall₂ (Shows m) ps Ps ∧
      (∀ ρ, m.eval ρ ⟨3⟩ = true → ∃! i : Nat, ∃ P, Ps[i]? = some P ∧ Agrees m ρ P) ∧
      (∀ ρ, m.eval ρ ⟨3⟩ = false → ∀ P ∈ Ps, ¬ Agrees m ρ P) ∧
      Ps.Pairwise Precedes := by
  have r₀ := Reached.created (show create 2 2 0.2 = .ok _ from rfl)
  have r₁ := r₀.answered (c := .extendVars 2) trivial (show _ = EStateM.Result.ok [] _ from rfl)
  have r₂ := r₁.answered (c := .mkVar 2) trivial (show _ = EStateM.Result.ok [⟨2⟩] _ from rfl)
  have r₃ := r₂.answered (c := .mkNode 1 ⟨2⟩ .one)
    ⟨⟨by decide, by decide +kernel⟩, ⟨by decide, by decide +kernel⟩,
      ⟨by decide, by decide +kernel⟩, by decide +kernel, by decide +kernel⟩
    (show _ = EStateM.Result.ok [⟨3⟩] _ from rfl)
  refine ⟨_, r₃, ⟨by decide, by decide +kernel⟩, ?_⟩
  exact walk_partitions r₃.wellFormed.1 ⟨by decide, by decide +kernel⟩

end Factbase.Diagram.PathWalk
