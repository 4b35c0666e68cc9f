import Factbase.Proofs.Diagram.Histories

/-!
# Quantifying in several steps

A set of variables may be quantified away at once or in parts, one behind another, and may be listed
in any order.

* `Variables m X`: different variables of the manager, which are below `twoPow 31` as words;
* `projectOver f X`: a set of variables is built and quantified away;
* `somewhere_append`: **quantifying over two sets one behind the other is quantifying over both**;
* `makes_projectEach`: what comes of quantifying in steps, whatever they are;
* `reached_quantified`: **the result is true where the edge is true for some values of the
  variables, depends on none of them, and is the same edge for all ways to list or split the set.**
-/

namespace Factbase.Diagram.Manager

/-- Different variables of the manager that their words are read as. -/
structure Variables (m : Manager) (X : List Nat) : Prop where
  allocated : ∀ v ∈ X, m.order.Allocated v
  nodup : X.Nodup
  small : ∀ v ∈ X, v < twoPow 31

/-- `f` with the listed variables quantified away. -/
def projectOver (f : Edge) (X : List Nat) : Op Edge := do
  project f (← varSetOfWords X)

/-! ## 1. Quantified values of several sets -/

section Values

variable {m : Manager} {f : Edge} {xs ys : List Nat} {ρ : Assignment}

/-- Which variables are listed matters, and nothing else about the list. -/
theorem somewhere_congr (same : ∀ v, v ∈ xs ↔ v ∈ ys) :
    m.Somewhere xs ρ f ↔ m.Somewhere ys ρ f :=
  exists_congr fun _ => and_congr_left fun _ =>
    forall_congr' fun v => imp_congr_left (not_congr (same v))

/-- **Quantifying over two sets one behind the other is quantifying over both.** -/
theorem somewhere_append : m.Somewhere (xs ++ ys) ρ f ↔
    ∃ ρ' : Assignment, (∀ v, v ∉ ys → ρ' v = ρ v) ∧ m.Somewhere xs ρ' f := by
  constructor
  · rintro ⟨ρ', hoff, hval⟩
    -- half-way the second set has its new values already, and the first one has its old ones
    refine ⟨fun v => if v ∈ ys then ρ' v else ρ v, fun v hv => if_neg hv, ρ', fun v hv => ?_, hval⟩
    show ρ' v = if v ∈ ys then ρ' v else ρ v
    by_cases hy : v ∈ ys
    · exact (if_pos hy).symm
    · rw [if_neg hy]
      exact hoff v fun hmem => (List.mem_append.mp hmem).elim hv hy
  · rintro ⟨ρ', hoff, ρ'', hoff', hval⟩
    refine ⟨ρ'', fun v hv => ?_, hval⟩
    obtain ⟨hx, hy⟩ := not_or.mp (mt List.mem_append.mpr hv)
    rw [hoff' v hx, hoff v hy]

/-- A value that is quantified over makes no difference. -/
theorem somewhere_update_of_mem {v : Nat} (hv : v ∈ xs) (b : Bool) :
    m.Somewhere xs (Function.update ρ v b) f ↔ m.Somewhere xs ρ f :=
  exists_congr fun _ => and_congr_left fun _ => forall₂_congr fun w hw => by
    rw [Function.update_of_ne (ne_of_mem_of_not_mem hv hw).symm]

end Values

/-! ## 2. Quantifying in steps -/

/-- The variables stay what they are. -/
theorem Next.variables {m m' : Manager} (n : m.Next m') {X : List Nat} (hX : m.Variables X) :
    m'.Variables X :=
  ⟨n.2.order ▸ hX.allocated, hX.nodup, hX.small⟩

section Steps

variable {m : Manager} (h : m.WellFormed) {f : Edge} (hf : m.Holds f)

include h hf

/-- **A listed set is quantified away**, in whichever order it is listed. -/
theorem makes_projectOver {X : List Nat} (hX : m.Variables X) :
    Makes (projectOver f X) m fun ρ => m.anywhere X f ρ := by
  have hends := ends_varCube h hX.allocated hX.nodup
  rw [← varSetOfWords_eq hX.small] at hends
  refine makes_bind hends fun vars m₁ n ⟨ws, hperm, hset⟩ => ?_
  refine (makes_project n.1 (n.holds hf) hset).congr fun ρ => ?_
  rw [n.anywhere_eq h hf, anywhere_eq_iff]
  exact somewhere_congr fun v => hperm.mem_iff

/-- **In steps all listed sets are quantified away.** -/
theorem makes_projectEach {Xs : List (List Nat)} (hXs : ∀ X ∈ Xs, m.Variables X) :
    Makes (Xs.foldlM projectOver f) m fun ρ => m.anywhere Xs.flatten f ρ := by
  induction Xs generalizing m f with
  | nil =>
      refine (makes_pure h hf).congr fun ρ => (anywhere_eq_eval_iff.mpr ?_)
      exact somewhere_nil.symm
  | cons X Xs ih =>
      obtain ⟨hX, hXs⟩ := List.forall_mem_cons.mp hXs
      rw [List.foldlM_cons]
      refine (makes_projectOver h hf hX).bind fun e m₁ n he hval => ?_
      refine (ih n.1 he fun Y hY => n.variables (hXs Y hY)).congr fun ρ => ?_
      rw [List.flatten_cons, anywhere_eq_iff, somewhere_append]
      exact exists_congr fun ρ' => and_congr_right fun _ => anywhere_eq_eval_iff.mp (hval ρ')

end Steps

/-! ## 3. Main result -/

/-- **Existential quantification is exact.** In a manager that is reached, quantifying an edge over
different variables comes to an edge. It is true exactly where the first edge is true for some
values of these variables, and its value depends on none of them. Quantifying over the same set
split into any parts comes to an edge as well, and to the same one for every other way to list or
split the set, then or at any later time. -/
theorem reached_quantified {m : Manager} {refs : List Edge} (r : Reached m refs) {f : Edge}
    (hf : m.Holds f) {X : List Nat} (hX : m.Variables X) :
    (∃ e m', projectOver f X m = .ok e m' ∧ m.Next m' ∧ m'.Holds e ∧
      (∀ ρ, m'.eval ρ e = true ↔
        ∃ ρ' : Assignment, (∀ v, v ∉ X → ρ' v = ρ v) ∧ m.eval ρ' f = true) ∧
      ∀ v ∈ X, ∀ ρ b, m'.eval (Function.update ρ v b) e = m'.eval ρ e) ∧
    ∀ Xs : List (List Nat), (∀ Y ∈ Xs, m.Variables Y) → (∀ v, v ∈ Xs.flatten ↔ v ∈ X) →
      ∃ e m', Xs.foldlM projectOver f m = .ok e m' ∧ m.Next m' ∧ m'.Holds e ∧
        ∀ (m'' : Manager) (Ys : List (List Nat)), m'.Later m'' → (∀ Y ∈ Ys, m''.Variables Y) →
          (∀ v, v ∈ Ys.flatten ↔ v ∈ X) → ∃ m₃, Ys.foldlM projectOver f m'' = .ok e m₃ := by
  have h := r.wellFormed.1
  refine ⟨?_, fun Xs hXs hsame => ?_⟩
  · obtain ⟨e, m', run, n, he, hval⟩ := makes_projectOver h hf hX
    refine ⟨e, m', run, n, he, fun ρ => anywhere_eq_eval_iff.mp (hval ρ),
      fun v hv ρ b => ?_⟩
    rw [hval, hval, anywhere_eq_iff]
    exact somewhere_update_of_mem hv b
  · obtain ⟨e, m', run, n, he, hval⟩ := makes_projectEach h hf hXs
    refine ⟨e, m', run, n, he, fun m'' Ys later hYs hsame' => ?_⟩
    have hf'' := later.2.holds (n.holds hf)
    obtain ⟨e', m₃, run', n', he', hval'⟩ := makes_projectEach later.1 hf'' hYs
    -- both edges are in the last manager, and have the same value there
    have hlast := later.2.trans n'.2.nodes
    have heq : e' = e := n'.1.eq_of_eval_eq he' (hlast.holds he) fun ρ => by
      rw [hval', hlast.eval_eq n.1.toFounded he, hval, anywhere_eq_iff,
        (n.2.nodes.trans later.2).somewhere_iff h.toFounded hf]
      exact somewhere_congr fun v => (hsame' v).trans (hsame v).symm
    exact ⟨m₃, heq ▸ run'⟩

/-- The disjunction of two variables, quantified over one of them and then the other, and after that
over both at once, listed the other way round. -/
theorem reached_quantified_disjunction : ∃ m e m' m₃, Reached m [⟨3⟩, ⟨2⟩, .one, .zero] ∧
    m.Holds ⟨3⟩ ∧ m.Variables [1, 2] ∧ (∀ Y ∈ [[1], [2]], m.Variables Y) ∧ m'.Variables [2, 1] ∧
    [[1], [2]].foldlM projectOver ⟨3⟩ m = .ok e m' ∧
    [[2, 1]].foldlM projectOver ⟨3⟩ m' = .ok e m₃ := by
  obtain ⟨m, r, hvars, _⟩ := reached_disjunction
  have hf := r.wellFormed.2 ⟨3⟩ List.mem_cons_self
  have listed : ∀ X : List Nat, X.Nodup → (∀ v ∈ X, v ≠ 0 ∧ v ≤ 2) → m.Variables X :=
    fun X hnodup hX => ⟨fun v hv => ⟨(hX v hv).1, (hX v hv).2.trans_eq hvars.symm⟩, hnodup,
      fun v hv => (hX v hv).2.trans_lt (by decide)⟩
  have hX : m.Variables [1, 2] := listed _ (by decide) (by decide)
  have hXs : ∀ Y ∈ [[1], [2]], m.Variables Y :=
    List.forall_mem_cons.mpr ⟨listed _ (by decide) (by decide),
      List.forall_mem_singleton.mpr (listed _ (by decide) (by decide))⟩
  obtain ⟨e, m', run, n, _, hlater⟩ :=
    (reached_quantified r hf hX).2 [[1], [2]] hXs fun v => Iff.rfl
  have hYs : m'.Variables [2, 1] := n.variables (listed _ (by decide) (by decide))
  obtain ⟨m₃, run'⟩ := hlater m' [[2, 1]] ⟨n.1, List.prefix_refl _⟩
    (fun Y hY => List.mem_singleton.mp hY ▸ hYs) (by simp [or_comm])
  exact ⟨m, e, m', m₃, r, hf, hX, hXs, hYs, run, run'⟩

end Factbase.Diagram.Manager
