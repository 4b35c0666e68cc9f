import Factbase.Proofs.Diagram.Histories
import Factbase.Proofs.Diagram.Retries

/-!
# Descents come to an end

If-then-else and quantification carry a bound on their depth. Here they run without it, as nested
calls with nothing taken for granted: a number of calls takes the place of the bound, and every
check that the program makes, or could make, is one that may fail.

* `chooseByCalls`: if-then-else by calls (see there), and `choose` with as many of them as the
  number of nodes asks for;
* `projectByCalls`: quantification by calls;
* `projectByCalls_eq`: **it comes to the same within as many nested calls as both indices add up to,
  and no check fails**;
* `reached_halts`: **in a manager that is reached, retries end and so do both operations, with the
  same results however many calls there may be.**
-/

namespace Factbase.Diagram.Manager

/-- If-then-else by as many calls as the nodes ask for. -/
def choose (t : Triple) : Op Edge := do
  chooseByCalls (12 * (← get).numNodes + 4) t

/-- Quantification by calls. The first number bounds how many of them are nested. -/
def projectByCalls : Nat → Edge → Edge → Op Edge
  | 0 => fun _ _ => throw .endless
  | calls + 1 => projectStep (projectByCalls calls) (fun low high => choose ⟨low, .one, high⟩)
      mkNodeBelow

/-! ## 1. If-then-else -/

theorem cost_lt {m : Manager} {t : Triple} (ht : t.Held m) : t.cost m < 12 * m.numNodes + 4 := by
  have hretries := t.retries_le m
  have := ht.cond.2
  have := ht.yes.2
  have := ht.no.2
  rw [Triple.cost, Triple.weight]
  omega

/-- **However many calls there may be beyond the cost, if-then-else comes to the same.** -/
theorem chooseByCalls_eq_ite {m : Manager} (h : m.WellFormed) {t : Triple} (ht : t.Held m)
    {calls : Nat} (hcalls : t.cost m < calls) :
    chooseByCalls calls t m = ite t.cond t.yes t.no m :=
  chooseByCalls_eq calls _ h ht hcalls (weight_lt_fuel ht.cond ht.yes ht.no)

theorem choose_eq_ite {m : Manager} (h : m.WellFormed) {t : Triple} (ht : t.Held m) :
    choose t m = ite t.cond t.yes t.no m :=
  chooseByCalls_eq_ite h ht (cost_lt ht)

/-! ## 2. Quantification -/

section Children

variable {calls depth : Nat}
  (ih : ∀ {m : Manager} {f vars : Edge} {vs : List Nat}, m.WellFormed → m.Holds f →
    m.IsVarSet vars vs → f.index + vars.index < calls → f.index + vars.index < depth →
    projectByCalls calls f vars m = projectWithin depth f vars m)
  {m : Manager} (h : m.WellFormed) {f vars : Edge} {vs : List Nat} (hf : m.Holds f)
  (ht : f.isTerminal = false) (hset : m.IsVarSet vars vs)
  (hcalls : f.index + vars.index ≤ calls) (hdepth : f.index + vars.index ≤ depth)
  {m' : Manager} (n : m.Next m')

include ih h hf ht hset hcalls hdepth n

/-- The results for both children are joined alike. -/
theorem joinStep_eq : joinStep (projectByCalls calls) (fun low high => choose ⟨low, .one, high⟩)
    vars (m.lowOf f) (m.highOf f) m' =
      joinStep (projectWithin depth) disj vars (m.lowOf f) (m.highOf f) m' := by
  have hlow := n.holds (h.holds_lowOf hf ht)
  have hhigh := n.holds (h.holds_highOf hf ht)
  have hset := n.2.nodes.isVarSet hset
  have hl := h.index_lowOf_lt hf ht
  have hh := h.index_highOf_lt hf ht
  refine (makes_projectWithin depth n.1 hlow hset (by omega)).bind_eq
    (ih n.1 hlow hset (by omega) (by omega)) fun low m₁ n₁ hr₁ _ => ?_
  by_cases hdone : low = .one
  · rw [if_pos hdone, if_pos hdone]
  rw [if_neg hdone, if_neg hdone]
  have hhigh := n₁.holds hhigh
  have hset := n₁.2.nodes.isVarSet hset
  refine (makes_projectWithin depth n₁.1 hhigh hset (by omega)).bind_eq
    (ih n₁.1 hhigh hset (by omega) (by omega)) fun high m₂ n₂ hr₂ _ => ?_
  exact choose_eq_ite n₂.1 (t := ⟨low, .one, high⟩) ⟨n₂.holds hr₁, n₂.1.holds_one, hr₂⟩

/-- The results for both children come under the variable alike, and they stand below it. -/
theorem keepStep_eq : keepStep (projectByCalls calls) mkNodeBelow f vars (m.lowOf f) (m.highOf f)
    m' = keepStep (projectWithin depth) mkNode f vars (m.lowOf f) (m.highOf f) m' := by
  have hlow := h.holds_lowOf hf ht
  have hhigh := h.holds_highOf hf ht
  have hset₀ := n.2.nodes.isVarSet hset
  have hl := h.index_lowOf_lt hf ht
  have hh := h.index_highOf_lt hf ht
  refine (makes_projectWithin depth n.1 (n.holds hlow) hset₀ (by omega)).bind_eq
    (ih n.1 (n.holds hlow) hset₀ (by omega) (by omega)) fun low m₁ n₁ hr₁ hval₁ => ?_
  have n' := n.trans n₁
  have hset₁ := n₁.2.nodes.isVarSet hset₀
  refine (makes_projectWithin depth n'.1 (n'.holds hhigh) hset₁ (by omega)).bind_eq
    (ih n'.1 (n'.holds hhigh) hset₁ (by omega) (by omega)) fun high m₂ n₂ hr₂ hval₂ => ?_
  have n'' := n'.trans n₂
  have hf₂ := n''.holds hf
  have hnode := node_eq hf₂.1 hf₂.2
  obtain ⟨hv, below, below'⟩ := n''.fit_keep h hf ht hnode (n₂.holds hr₁) hr₂
    (fun ρ => (n₂.eval_eq n₁.1 hr₁ ρ).trans ((hval₁ ρ).trans (n.anywhere_eq h hlow vs ρ)))
    fun ρ => (hval₂ ρ).trans (n'.anywhere_eq h hhigh vs ρ)
  rw [ask_bind hnode, ask_bind hnode]
  exact mkNodeBelow_eq n''.1 hv (n₂.holds hr₁) hr₂ below below'

end Children

/-- **Quantification by calls comes to the same**, with as many nested calls as the indices of the
edge and of the set add up to. -/
theorem projectByCalls_eq : ∀ (calls depth : Nat) {m : Manager} {f vars : Edge} {vs : List Nat},
    m.WellFormed → m.Holds f → m.IsVarSet vars vs →
    f.index + vars.index < calls → f.index + vars.index < depth →
    projectByCalls calls f vars m = projectWithin depth f vars m := by
  intro calls
  induction calls with
  | zero => exact fun _ _ _ _ _ _ _ _ hlt => absurd hlt (Nat.not_lt_zero _)
  | succ calls ih =>
      intro depth m f vars vs h hf hset hcalls hdepth
      obtain ⟨depth, rfl⟩ := Nat.exists_eq_add_one_of_ne_zero (Nat.ne_zero_of_lt hdepth)
      rw [projectByCalls]
      by_cases hdone : f.isTerminal = true ∨ vars = .one
      · rw [projectStep_done hdone, projectWithin_done hdone]
      obtain ⟨ht, hone⟩ := not_or.mp hdone
      rw [Bool.not_eq_true] at ht
      obtain ⟨rest, rfl, htv, hrest⟩ := hset.exists_cons hone
      have hirest := h.index_highOf_lt (hset.holds h.toFounded) htv
      rw [projectStep_eq h.toFounded hf ht hset, projectWithin_succ h.toFounded hf ht hset]
      split
      · exact ih depth h hf hrest (by omega) (by omega)
      split
      · exact memo_congr h fun m' n => joinStep_eq (ih depth) h hf ht hrest (by omega) (by omega) n
      · exact memo_congr h fun m' n => keepStep_eq (ih depth) h hf ht hset (by omega) (by omega) n

/-! ## 3. Main result -/

/-- **If-then-else and quantification come to an end, and nothing that they take for granted
fails.** Take any manager that is reached, any triple of its edges, any edge and any set of
variables. A call for the triple that calls for another one of the same edges leaves fewer such
retries to come, and there are at most three in a row. If-then-else comes to an edge, and so it does
by calls, where every rule is a call and every check may fail, with any number of calls beyond the
cost of the triple. Quantification comes to an edge, and so it does by calls. -/
theorem reached_halts {m : Manager} {refs : List Edge} (r : Reached m refs) {t : Triple}
    (ht : t.Held m) {f vars : Edge} {vs : List Nat} (hf : m.Holds f) (hset : m.IsVarSet vars vs) :
    (∀ u, Retry m t u → u.Held m ∧ u.weight ≤ t.weight ∧ u.retries m < t.retries m) ∧
    (∀ us, (t :: us).IsChain (Retry m) → us.length ≤ 3) ∧
    (∃ e m', ite t.cond t.yes t.no m = .ok e m' ∧
      ∀ calls, t.cost m < calls → chooseByCalls calls t m = .ok e m') ∧
    ∃ e m', project f vars m = .ok e m' ∧
      ∀ calls, f.index + vars.index < calls → projectByCalls calls f vars m = .ok e m' := by
  have h := r.wellFormed.1
  refine ⟨fun u hr => ?_, fun us hchain => ?_, ?_, ?_⟩
  · obtain ⟨hheld, hle, hlt, _⟩ := Triple.retry_spec h.toFounded ht hr
    exact ⟨hheld, hle, hlt⟩
  · exact (Triple.length_retries_le h.toFounded ht hchain).trans (t.retries_le m)
  · obtain ⟨e, m', run, _⟩ := makes_ite h ht.cond ht.yes ht.no
    exact ⟨e, m', run, fun calls hcalls => (chooseByCalls_eq_ite h ht hcalls).trans run⟩
  · obtain ⟨e, m', run, _⟩ := makes_project h hf hset
    refine ⟨e, m', run, fun calls hcalls => Eq.trans ?_ run⟩
    exact projectByCalls_eq calls _ h hf hset hcalls
      (index_lt_fuel hf (hset.holds h.toFounded))

/-- A triple that repeats its condition and then has a branch above it, and the disjunction of two
variables quantified over the second one. -/
theorem reached_halts_disjunction : ∃ m, Reached m [⟨3⟩, ⟨2⟩, .one, .zero] ∧
    (⟨⟨2⟩, ⟨3⟩, ⟨2⟩⟩ : Triple).Held m ∧ m.Holds ⟨3⟩ ∧ m.IsVarSet ⟨2⟩ [2] ∧
    Retry m ⟨⟨2⟩, ⟨3⟩, ⟨2⟩⟩ ⟨⟨2⟩, ⟨3⟩, .zero⟩ ∧
    Triple.retries m ⟨⟨2⟩, ⟨3⟩, .zero⟩ < Triple.retries m ⟨⟨2⟩, ⟨3⟩, ⟨2⟩⟩ ∧
    (∃ e m', ite ⟨2⟩ ⟨3⟩ ⟨2⟩ m = .ok e m' ∧ ∀ calls, Triple.cost m ⟨⟨2⟩, ⟨3⟩, ⟨2⟩⟩ < calls →
      chooseByCalls calls ⟨⟨2⟩, ⟨3⟩, ⟨2⟩⟩ m = .ok e m') ∧
    ∃ e m', project ⟨3⟩ ⟨2⟩ m = .ok e m' ∧
      ∀ calls, 5 < calls → projectByCalls calls ⟨3⟩ ⟨2⟩ m = .ok e m' := by
  obtain ⟨m, r, _, hset⟩ := reached_disjunction
  have hx := r.wellFormed.2 ⟨3⟩ List.mem_cons_self
  have hy := r.wellFormed.2 ⟨2⟩ (List.mem_cons_of_mem _ List.mem_cons_self)
  have ht : (⟨⟨2⟩, ⟨3⟩, ⟨2⟩⟩ : Triple).Held m := ⟨hy, hx, hy⟩
  have hretry : Retry m ⟨⟨2⟩, ⟨3⟩, ⟨2⟩⟩ ⟨⟨2⟩, ⟨3⟩, .zero⟩ := .standard (by decide) (by decide)
  obtain ⟨hless, _, hite, hproject⟩ := reached_halts r ht hx hset
  exact ⟨m, r, ht, hx, hset, hretry, (hless _ hretry).2.2, hite, hproject⟩

end Factbase.Diagram.Manager
