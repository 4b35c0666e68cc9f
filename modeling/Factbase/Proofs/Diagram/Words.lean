import Factbase.Proofs.Diagram.Conjunctions
import Factbase.Proofs.Diagram.Splits

/-!
# Variables beyond signed words

A set of variables is given as words of 32 bits, which are read as signed literals. A word from
`twoPow 31` on is no set of its variable then, but a complement: of the variable that is missing up
to `twoPow 32`, which the manager has whenever it has the one that was meant.

* `varSetOfWords_large`: **the set of such a word is the complement of an edge of one variable**;
* `project_complement`: quantifying over the complement of a variable stops;
* `projectOver_large`: **so does quantifying over such a word**, for every edge further down;
* `ends_varSetOfWords_both`: **two variables of which one is read as the complement of the other one
  have a set that is false without being the false edge**, and the order is broken behind it;
* `exists_unquantified`, `exists_uncanonical`: managers that are reached and where this happens.
-/

namespace Factbase.Diagram.Manager

/-! ## 1. One word -/

/-- A literal by itself is a cube. -/
theorem cube_singleton {l : Int} (hl : l ≠ 0) : cube [l] = addLiteral .one l := by
  have hzero : ¬ [l].contains 0 = true := by simpa using hl.symm
  funext m
  unfold cube
  rw [if_neg hzero]
  refine (ask_bind (show deepestFirst m [l] = .ok [l] from rfl)).trans ?_
  rw [List.foldlM_cons]
  exact congrFun (bind_pure _) m

/-- The complement of a variable is that of the variable's edge. -/
theorem addLiteral_neg {u : Nat} (hu : u ≠ 0) :
    addLiteral .one (-u) = do return -(← addLiteral .one u) := by
  unfold addLiteral
  rw [if_pos (by omega), if_neg (by omega), Int.natAbs_neg, Int.natAbs_natCast]
  unfold mkNode
  rw [if_neg hu, if_neg hu]
  rfl

/-- **The set of a word that is too large is the complement of an edge of one variable.** -/
theorem varSetOfWords_large {u w : Nat} (hw : twoPow 31 ≤ w) (hsum : w + u = twoPow 32)
    (hu : u ≠ 0) : varSetOfWords [w] = do return -(← varCube [u]) := by
  have hmissing : twoPow 32 - w = u := by omega
  have hliteral : literalsOfWords [w] = [-(u : Int)] := by
    rw [literalsOfWords, List.map_singleton, bmod_of_large hw (by omega), hmissing]
  rw [varSetOfWords, hliteral, varCube, List.map_singleton, cube_singleton (by omega),
    cube_singleton (by simpa using hu)]
  exact addLiteral_neg hu

section Quantifying

variable {m : Manager} (h : m.WellFormed) {f : Edge} (hf : m.Holds f)
  (ht : f.isTerminal = false) {u : Nat} (below : m.order.levelAt u < m.rank f)

include h hf ht below

/-- **Quantifying over the complement of a variable stops** as soon as the variable stands above the
edge. -/
theorem project_complement {x : Edge} (hx : m.IsVarSet x [u]) :
    project f (-x) m = .error .falseVariableSet m := by
  obtain ⟨hheld, htx, hpos, hv, _, hhigh⟩ := hx
  have htx' : (-x).isTerminal = false := by rwa [Edge.isTerminal_neg]
  have hrank : m.rank (-x) = m.order.levelAt u := by
    rw [rank_of_not_terminal htx', varOf, Edge.index_neg, ← hv]
    rfl
  have hrest : m.high (-x) = .ok .zero := by
    rw [h.high_eq (holds_neg.mpr hheld) htx', highOf_neg hheld.1, show m.highOf x = .one from hhigh]
    rfl
  have hone : -x ≠ .one := fun e => by rw [e] at htx'; cases htx'
  have hzero : -x ≠ .zero := fun e => by rw [e] at htx'; cases htx'
  have hfuel := Nat.mul_le_mul (Nat.le_add_left 3 (2 * m.numNodes))
    (Nat.le_add_left 3 (2 * m.numNodes))
  obtain ⟨depth, hdepth⟩ := Nat.exists_eq_add_of_le' (Nat.le_trans (by decide : 2 ≤ 3 * 3) hfuel)
  show projectWithin ((2 * m.numNodes + 3) * (2 * m.numNodes + 3)) f (-x) m = _
  rw [hdepth, projectWithin, if_neg (by simp [ht, hone])]
  dsimp only
  rw [if_neg hzero]
  refine (ask_bind (h.level_eq hf)).trans ((ask_bind (h.level_eq (holds_neg.mpr hheld))).trans ?_)
  rw [hrank, if_pos below]
  refine (ask_bind hrest).trans ?_
  rw [projectWithin, if_neg (by simp [ht]; decide)]
  rfl

/-- **Quantifying over a word that is too large stops**, where the variable that it is read as
stands above the edge. -/
theorem projectOver_large {w : Nat} (hw : twoPow 31 ≤ w) (hsum : w + u = twoPow 32)
    (hu : m.order.Allocated u) :
    ∃ m', m.Next m' ∧ projectOver f [w] m = .error .falseVariableSet m' := by
  obtain ⟨x, m', run, n, ws, hperm, hset⟩ := ends_varCube h
    (List.forall_mem_singleton.mpr hu) (List.nodup_singleton u)
  obtain rfl := List.perm_singleton.mp hperm
  refine ⟨m', n, ?_⟩
  have hrun : varSetOfWords [w] m = .ok (-x) m' := by
    rw [varSetOfWords_large hw hsum hu.1]
    exact bind_of_ok run
  have hstop : project f (-x) m' = .error .falseVariableSet m' :=
    project_complement n.1 (n.holds hf) ht (by rwa [n.2.order, n.2.rank_eq hf]) hset
  exact (bind_of_ok hrun).trans hstop

end Quantifying

/-! ## 2. Two words -/

/-- **Two variables of which one is read as the complement of the other one.** Their set is false
under every assignment, but it is not the false edge, and the manager behind it is not well-formed.
-/
theorem ends_varSetOfWords_both {m : Manager} (h : m.WellFormed) {u w : Nat} (hu : u < twoPow 31)
    (hsum : w + u = twoPow 32) (hv : m.order.Allocated u) :
    Ends (varSetOfWords [u, w]) m fun e m' =>
      m'.Holds e ∧ (∀ ρ, m'.eval ρ e = false) ∧ e ≠ .zero ∧ ¬ m'.WellFormed := by
  have h0 := hv.1
  have hword : twoPow 32 = 2 * twoPow 31 := rfl
  have hmissing : twoPow 32 - w = u := by omega
  have hliterals : literalsOfWords [u, w] = [(u : Int), -(u : Int)] := by
    rw [literalsOfWords, List.map_cons, List.map_singleton, bmod_of_small hu,
      bmod_of_large (by omega) (by omega), hmissing]
  have hknown : m.Known [(u : Int), -(u : Int)] := by
    simpa [Known] using hv
  rw [varSetOfWords, hliterals]
  refine (ends_cube_repeated h hknown (by simp [Different])).mono fun e m' hstacked => ?_
  obtain ⟨s, b⟩ := hstacked
  refine ⟨s.held, fun ρ => ?_, s.nonzero, fun hm => b.not_founded hm.toFounded⟩
  rw [s.eval_eq, List.all_cons, List.all_cons, List.all_nil, literalTrue_natCast,
    literalTrue_neg h0, Bool.and_true, Bool.and_not_self]

/-! ## 3. Managers that are reached -/

/-- A manager is reached that has one variable more than signed words, and a decision on it. -/
theorem reached_beyond : ∃ m : Manager, Reached m [⟨2⟩, .one, .zero] ∧
    m.numVars = twoPow 31 + 1 ∧ m.order.levelAt (twoPow 31) < m.rank ⟨2⟩ := by
  have r₀ := Reached.created (show create 2 2 0.2 = .ok _ from rfl)
  have r₁ := r₀.answered (c := .extendVars (twoPow 31 + 1)) trivial
    (show _ = EStateM.Result.ok [] _ from rfl)
  have r₂ := r₁.answered (c := .mkVar (twoPow 31 + 1)) trivial
    (show _ = EStateM.Result.ok [⟨2⟩] _ from rfl)
  exact ⟨_, r₂, by decide +kernel, by decide +kernel⟩

/-- **A variable that cannot be quantified over.** -/
theorem exists_unquantified : ∃ m : Manager, Reached m [⟨2⟩, .one, .zero] ∧ m.Holds ⟨2⟩ ∧
    m.order.Allocated (twoPow 31) ∧
    ∃ m', projectOver ⟨2⟩ [twoPow 31] m = .error .falseVariableSet m' := by
  obtain ⟨m, r, hvars, below⟩ := reached_beyond
  have hx := r.wellFormed.2 ⟨2⟩ List.mem_cons_self
  have hv : m.order.Allocated (twoPow 31) := ⟨by decide, Nat.le_trans (Nat.le_succ _) hvars.ge⟩
  obtain ⟨m', _, run⟩ := projectOver_large r.wellFormed.1 hx rfl below (Nat.le_refl _) rfl hv
  exact ⟨m, r, hx, hv, m', run⟩

/-- **Two variables whose set breaks the order.** -/
theorem exists_uncanonical : ∃ m : Manager, Reached m [⟨2⟩, .one, .zero] ∧
    (∀ v ∈ [twoPow 31 - 1, twoPow 31 + 1], m.order.Allocated v) ∧
    ∃ e m', varSetOfWords [twoPow 31 - 1, twoPow 31 + 1] m = .ok e m' ∧
      m'.Holds e ∧ (∀ ρ, m'.eval ρ e = false) ∧ e ≠ .zero ∧ ¬ m'.WellFormed := by
  obtain ⟨m, r, hvars, _⟩ := reached_beyond
  have hle : twoPow 31 - 1 ≤ m.numVars := by omega
  have hv : m.order.Allocated (twoPow 31 - 1) := ⟨by decide, hle⟩
  exact ⟨m, r, List.forall_mem_cons.mpr ⟨hv, List.forall_mem_singleton.mpr ⟨by decide, hvars.ge⟩⟩,
    ends_varSetOfWords_both r.wellFormed.1 (by decide) rfl hv⟩

end Factbase.Diagram.Manager
