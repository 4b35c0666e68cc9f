import Factbase.Diagram.Quantify
import Factbase.Proofs.Diagram.Choice

/-!
# Quantification is right

A set of variables is an edge of its own, the conjunction of the variables (`IsVarSet`).

* `somewhere_skip`, `somewhere_split`, `somewhere_node`: how the quantified value of an edge
  comes from those of its children;
* `makes_project`: **the result is true exactly where the edge is true for some values of the
  variables in the set.** The descent is an induction on the depth, which the sum of the two
  indices bounds.
-/

namespace Factbase.Diagram.Manager

open Classical in
/-- Whether an edge is true for some values of the listed variables. -/
noncomputable def anywhere (m : Manager) (vs : List Nat) (f : Edge) (ρ : Assignment) : Bool :=
  decide (m.Somewhere vs ρ f)

theorem anywhere_eq_iff {m m' : Manager} {vs ws : List Nat} {f g : Edge} {ρ ρ' : Assignment} :
    m.anywhere vs f ρ = m'.anywhere ws g ρ' ↔ (m.Somewhere vs ρ f ↔ m'.Somewhere ws ρ' g) :=
  decide_eq_decide

open Classical in
theorem anywhere_eq_true_iff {m : Manager} {vs : List Nat} {f : Edge} {ρ : Assignment} :
    m.anywhere vs f ρ = true ↔ m.Somewhere vs ρ f :=
  decide_eq_true_iff

theorem anywhere_eq_eval_iff {m m' : Manager} {vs : List Nat} {f g : Edge} {ρ : Assignment} :
    m'.eval ρ g = m.anywhere vs f ρ ↔ (m'.eval ρ g = true ↔ m.Somewhere vs ρ f) := by
  rw [Bool.eq_iff_iff, anywhere_eq_true_iff]

/-! ## 1. Quantified values -/

theorem somewhere_nil {m : Manager} {f : Edge} {ρ : Assignment} :
    m.Somewhere [] ρ f ↔ m.eval ρ f = true := by
  constructor
  · rintro ⟨ρ', hρ', hf⟩
    rwa [show ρ' = ρ from funext fun v => hρ' v List.not_mem_nil] at hf
  · exact fun hf => ⟨ρ, fun _ _ => rfl, hf⟩

theorem somewhere_leaf {m : Manager} {vs : List Nat} {f : Edge} (ht : f.isTerminal = true)
    {ρ : Assignment} : m.Somewhere vs ρ f ↔ m.eval ρ f = true := by
  constructor
  · rintro ⟨ρ', _, hf⟩
    rwa [eval_leaf ht] at hf ⊢
  · exact fun hf => ⟨ρ, fun _ _ => rfl, hf⟩

section Values

variable {m : Manager} (h : m.Founded) {f : Edge} (hf : m.Holds f) {vs : List Nat}
  {ρ : Assignment}

include h hf

/-- What does not depend on a variable need not be quantified over it. -/
theorem somewhere_skip {v : Nat} (hv : m.order.levelAt v < m.rank f) :
    m.Somewhere (v :: vs) ρ f ↔ m.Somewhere vs ρ f := by
  constructor
  · rintro ⟨ρ', hρ', hval⟩
    refine ⟨Function.update ρ' v (ρ v), fun w hw => ?_, by rwa [h.eval_update hf hv]⟩
    by_cases e : w = v
    · rw [e, Function.update_self]
    · rw [Function.update_of_ne e]
      exact hρ' w (List.not_mem_cons_of_ne_of_not_mem e hw)
  · rintro ⟨ρ', hρ', hval⟩
    exact ⟨ρ', fun w hw => hρ' w (List.not_mem_of_not_mem_cons hw), hval⟩

/-- Values of variables above an edge make no difference. -/
theorem somewhere_update {v : Nat} (hv : m.order.levelAt v < m.rank f) (b : Bool) :
    m.Somewhere vs (Function.update ρ v b) f ↔ m.Somewhere vs ρ f := by
  rw [← somewhere_skip h hf hv, ← somewhere_skip h hf hv (ρ := ρ)]
  have off : ∀ ρ' : Assignment, (∀ w, w ∉ v :: vs → ρ' w = Function.update ρ v b w) ↔
      ∀ w, w ∉ v :: vs → ρ' w = ρ w := fun ρ' =>
    forall_congr' fun w => imp_congr_right fun hw => by
      rw [Function.update_of_ne (List.ne_of_not_mem_cons hw)]
  simp only [Somewhere, off]

/-- A variable that is not quantified chooses between the children. -/
theorem somewhere_node (ht : f.isTerminal = false) (hv : m.varOf f ∉ vs) :
    m.Somewhere vs ρ f ↔ if ρ (m.varOf f) then m.Somewhere vs ρ (m.highOf f)
      else m.Somewhere vs ρ (m.lowOf f) := by
  have step : ∀ ρ' : Assignment, (∀ w, w ∉ vs → ρ' w = ρ w) → (m.eval ρ' f =
      if ρ (m.varOf f) then m.eval ρ' (m.highOf f) else m.eval ρ' (m.lowOf f)) :=
    fun ρ' hρ' => by rw [h.eval_node hf ht, hρ' _ hv]
  cases hb : ρ (m.varOf f) with
  | true =>
      rw [if_pos rfl]
      refine exists_congr fun ρ' => and_congr_right fun hρ' => ?_
      rw [step ρ' hρ', hb, if_pos rfl]
  | false =>
      rw [if_neg Bool.false_ne_true]
      refine exists_congr fun ρ' => and_congr_right fun hρ' => ?_
      rw [step ρ' hρ', hb, if_neg Bool.false_ne_true]

theorem anywhere_node (ht : f.isTerminal = false) (hv : m.varOf f ∉ vs) :
    m.anywhere vs f ρ = if ρ (m.varOf f) then m.anywhere vs (m.highOf f) ρ
      else m.anywhere vs (m.lowOf f) ρ := by
  have hnode := somewhere_node h hf ht hv (ρ := ρ)
  cases hb : ρ (m.varOf f) with
  | true =>
      rw [hb, if_pos rfl] at hnode
      exact anywhere_eq_iff.mpr hnode
  | false =>
      rw [hb, if_neg Bool.false_ne_true] at hnode
      exact anywhere_eq_iff.mpr hnode

/-- **A quantified variable leaves both children.** -/
theorem somewhere_split (ht : f.isTerminal = false) : m.Somewhere (m.varOf f :: vs) ρ f ↔
    m.Somewhere vs ρ (m.lowOf f) ∨ m.Somewhere vs ρ (m.highOf f) := by
  have hl := h.rank_lowOf hf ht
  have hh := h.rank_highOf hf ht
  rw [rank_of_not_terminal ht] at hl hh
  rw [← somewhere_skip h (h.holds_lowOf hf ht) hl, ← somewhere_skip h (h.holds_highOf hf ht) hh]
  constructor
  · rintro ⟨ρ', hρ', hval⟩
    rw [h.eval_node hf ht] at hval
    split at hval
    · exact Or.inr ⟨ρ', hρ', hval⟩
    · exact Or.inl ⟨ρ', hρ', hval⟩
  · have set : ∀ (b : Bool) (ρ' : Assignment), (∀ w, w ∉ m.varOf f :: vs → ρ' w = ρ w) →
        ∀ w, w ∉ m.varOf f :: vs → Function.update ρ' (m.varOf f) b w = ρ w :=
      fun b ρ' hρ' w hw => by
        rw [Function.update_of_ne (List.ne_of_not_mem_cons hw), hρ' w hw]
    rintro (⟨ρ', hρ', hval⟩ | ⟨ρ', hρ', hval⟩)
    · refine ⟨_, set false ρ' hρ', ?_⟩
      rwa [← h.eval_lowOf hf ht]
    · refine ⟨_, set true ρ' hρ', ?_⟩
      rwa [← h.eval_highOf hf ht]

end Values

/-! ## 2. Sets of variables -/

/-- A set stands at the level of its first variable. -/
theorem Founded.rank_isVarSet {m : Manager} (h : m.Founded) :
    ∀ {vs : List Nat} {e : Edge}, m.IsVarSet e vs → ∀ v ∈ vs, m.rank e ≤ m.order.levelAt v
  | v :: vs, e, ⟨he, ht, _, hv, _, hrest⟩, w, hw => by
      rw [rank_of_not_terminal ht, hv]
      rcases List.mem_cons.mp hw with rfl | hw
      · exact Nat.le_refl _
      · have hlt := h.rank_highOf he ht
        rw [rank_of_not_terminal ht, hv] at hlt
        exact hlt.le.trans (Founded.rank_isVarSet h hrest w hw)

theorem IsVarSet.holds {m : Manager} (h : m.Founded) {vs : List Nat} {e : Edge}
    (he : m.IsVarSet e vs) : m.Holds e := by
  cases vs with
  | nil => exact he ▸ h.holds_one
  | cons v vs => exact he.1

/-- Apart from the empty set, a set decides on its first variable. -/
theorem IsVarSet.exists_cons {m : Manager} {vs : List Nat} {e : Edge} (he : m.IsVarSet e vs)
    (h1 : e ≠ .one) : ∃ rest, vs = m.varOf e :: rest ∧ e.isTerminal = false ∧
      m.IsVarSet (m.highOf e) rest := by
  cases vs with
  | nil => exact absurd he h1
  | cons v rest =>
      obtain ⟨_, ht, _, hv, _, hrest⟩ := he
      exact ⟨rest, by rw [hv], ht, hrest⟩

theorem IsVarSet.unique {m : Manager} : ∀ {vs ws : List Nat} {e : Edge}, m.IsVarSet e vs →
    m.IsVarSet e ws → vs = ws
  | [], [], _, _, _ => rfl
  | [], _ :: _, _, he, ⟨_, ht, _⟩ => by rw [show _ = Edge.one from he] at ht; cases ht
  | _ :: _, [], _, ⟨_, ht, _⟩, he => by rw [show _ = Edge.one from he] at ht; cases ht
  | _ :: _, _ :: _, _, ⟨_, _, _, hv, _, hvs⟩, ⟨_, _, _, hw, _, hws⟩ => by
      rw [← hv, ← hw, hvs.unique hws]

/-! ## 3. The descent -/

theorem Next.anywhere_eq {m m' : Manager} (n : m.Next m') (h : m.WellFormed) {f : Edge}
    (hf : m.Holds f) (vs : List Nat) (ρ : Assignment) :
    m'.anywhere vs f ρ = m.anywhere vs f ρ :=
  anywhere_eq_iff.mpr (n.2.nodes.somewhere_iff h.toFounded hf)

/-- A quantified value does not depend on the variables above its edge, so that a node fits on top
of a result that has this value. -/
theorem Next.lt_rank_of_anywhere {m m' : Manager} (n : m.Next m') (h : m.WellFormed) {g r : Edge}
    (hg : m.Holds g) {l : Nat} (hl : l < m.rank g) (hl' : l < m.numVars) (hr : m'.Holds r)
    {vs : List Nat} (hval : ∀ ρ, m'.eval ρ r = m.anywhere vs g ρ) : l < m'.rank r :=
  n.1.lt_rank_of_independent hr (by rwa [n.numVars_eq]) fun w hw ρ b => by
    rw [n.2.order] at hw
    rw [hval, hval, anywhere_eq_iff, somewhere_update h.toFounded hg (by omega)]

/-- The answers to the key of a quantification are the edges with the quantified value. -/
theorem asks_project {m : Manager} (h : m.WellFormed) {f vars : Edge} {vs : List Nat}
    (hf : m.Holds f) (hset : m.IsVarSet vars vs) :
    m.Asks (.project f vars) fun ρ => m.anywhere vs f ρ := by
  intro m' r n
  have hset' := n.2.nodes.isVarSet hset
  constructor
  · rintro ⟨_, _, hr, ws, hws, hval⟩
    rw [hws.unique hset'] at hval
    exact ⟨hr, fun ρ => (anywhere_eq_eval_iff.mpr (hval ρ)).trans (n.anywhere_eq h hf vs ρ)⟩
  · rintro ⟨hr, hval⟩
    refine ⟨n.holds hf, hset'.holds n.1.toFounded, hr, vs, hset', fun ρ => ?_⟩
    rw [n.2.nodes.somewhere_iff h.toFounded hf]
    exact anywhere_eq_eval_iff.mp (hval ρ)

/-! ### Single steps -/

/-- What a call does, over what it calls: itself, the disjunction and the making of a node. -/
def projectStep (self join : Edge → Edge → Op Edge) (node : Nat → Edge → Edge → Op Edge)
    (f vars : Edge) : Op Edge := do
  if f.isTerminal || vars = .one then
    return f
  if vars = .zero then
    throw .falseVariableSet
  let levelF ← ask (·.level f)
  let levelV ← ask (·.level vars)
  if levelV < levelF then
    self f (← ask (·.high vars))
  else
    let key := OpKey.project f vars
    if let some known ← lookUp key then
      return known
    let f₀ ← ask (·.low f)
    let f₁ ← ask (·.high f)
    let result ←
      if levelF = levelV then do
        let rest ← ask (·.high vars)
        let low ← self f₀ rest
        if low = .one then
          pure low
        else
          join low (← self f₁ rest)
      else do
        let low ← self f₀ vars
        let high ← self f₁ vars
        node (← ask (·.node f.index)).var low high
    remember key result
    return result

/-- The results for both children, joined. A true one makes the other one needless. -/
def joinStep (self join : Edge → Edge → Op Edge) (vars lower upper : Edge) : Op Edge := do
  let low ← self lower vars
  if low = .one then
    return low
  join low (← self upper vars)

/-- The results for both children under their variable. -/
def keepStep (self : Edge → Edge → Op Edge) (node : Nat → Edge → Edge → Op Edge)
    (f vars lower upper : Edge) : Op Edge := do
  let low ← self lower vars
  let high ← self upper vars
  node (← ask (·.node f.index)).var low high

section Steps

variable {m : Manager} {self join : Edge → Edge → Op Edge} {node : Nat → Edge → Edge → Op Edge}
  {f vars : Edge}

/-- A leaf is its own result, and so is an edge where no variable is left. -/
theorem projectStep_done (hdone : f.isTerminal = true ∨ vars = .one) :
    projectStep self join node f vars m = .ok f m := by
  unfold projectStep
  rw [if_pos (by simpa using hdone)]
  rfl

theorem projectWithin_done (hdone : f.isTerminal = true ∨ vars = .one) (depth : Nat) :
    projectWithin (depth + 1) f vars m = .ok f m :=
  projectStep_done hdone

variable {v : Nat} {vs : List Nat} (h : m.Founded) (hf : m.Holds f) (ht : f.isTerminal = false)
  (hset : m.IsVarSet vars (v :: vs))

include h hf ht hset

/-- Otherwise the levels decide. -/
theorem projectStep_eq : projectStep self join node f vars m =
    (if m.order.levelAt v < m.rank f then self f (m.highOf vars) m
    else if m.rank f = m.order.levelAt v then
      memo (.project f vars) false (joinStep self join (m.highOf vars) (m.lowOf f) (m.highOf f)) m
    else memo (.project f vars) false
      (keepStep self node f vars (m.lowOf f) (m.highOf f)) m) := by
  obtain ⟨hvars, htv, _, hv, _, _⟩ := id hset
  have hone : vars ≠ .one := fun e => by rw [e] at htv; cases htv
  have hzero : vars ≠ .zero := fun e => by rw [e] at htv; cases htv
  have hrank : m.rank vars = m.order.levelAt v := by rw [rank_of_not_terminal htv, hv]
  rw [projectStep, if_neg (by simp [ht, hone])]
  dsimp only
  rw [if_neg hzero]
  refine (ask_bind (h.level_eq hf)).trans ((ask_bind (h.level_eq hvars)).trans ?_)
  rw [hrank]
  by_cases hskip : m.order.levelAt v < m.rank f
  · rw [if_pos hskip, if_pos hskip]
    refine ask_bind ?_
    exact h.high_eq hvars htv
  rw [if_neg hskip, if_neg hskip]
  by_cases heq : m.rank f = m.order.levelAt v
  · rw [if_pos heq]
    refine lookUp_bind_congr fun found cache => ?_
    cases found with
    | some known => rfl
    | none =>
        refine (ask_bind (h.low_eq hf ht)).trans ((ask_bind (h.high_eq hf ht)).trans ?_)
        rw [if_pos heq]
        refine (ask_bind (h.high_eq hvars htv)).trans ?_
        rw [joinStep]
        simp only [bind_assoc]
        refine congrFun (bind_congr fun low => ?_) _
        by_cases hdone : low = .one
        · rw [if_pos hdone, if_pos hdone]
          rfl
        · rw [if_neg hdone, if_neg hdone]
          simp only [bind_assoc]
          rfl
  · rw [if_neg heq]
    refine lookUp_bind_congr fun found cache => ?_
    cases found with
    | some known => rfl
    | none =>
        refine (ask_bind (h.low_eq hf ht)).trans ((ask_bind (h.high_eq hf ht)).trans ?_)
        rw [if_neg heq, keepStep]
        simp only [bind_assoc]
        rfl

theorem projectWithin_succ (depth : Nat) : projectWithin (depth + 1) f vars m =
    (if m.order.levelAt v < m.rank f then projectWithin depth f (m.highOf vars) m
    else if m.rank f = m.order.levelAt v then
      memo (.project f vars) false
        (joinStep (projectWithin depth) disj (m.highOf vars) (m.lowOf f) (m.highOf f)) m
    else memo (.project f vars) false
      (keepStep (projectWithin depth) mkNode f vars (m.lowOf f) (m.highOf f)) m) :=
  projectStep_eq h hf ht hset

end Steps

/-- **The results for both children fit under the variable of the edge.** -/
theorem Next.fit_keep {m m' : Manager} (n : m.Next m') (h : m.WellFormed) {f : Edge}
    (hf : m.Holds f) (ht : f.isTerminal = false) {node : Node} (hnode : m'.node f.index = .ok node)
    {vs : List Nat} {low high : Edge} (hl : m'.Holds low) (hh : m'.Holds high)
    (hlow : ∀ ρ, m'.eval ρ low = m.anywhere vs (m.lowOf f) ρ)
    (hhigh : ∀ ρ, m'.eval ρ high = m.anywhere vs (m.highOf f) ρ) :
    m'.order.Allocated node.var ∧ m'.order.levelAt node.var < m'.rank low ∧
      m'.order.levelAt node.var < m'.rank high := by
  have hv : node.var = m.varOf f := by
    rw [← (stored_of_node hnode).2, ← n.2.nodes.varOf_eq hf]
    rfl
  have hlt := h.rank_lt hf ht
  rw [hv, n.2.order, ← rank_of_not_terminal ht]
  exact ⟨h.allocated hf ht,
    n.lt_rank_of_anywhere h (h.holds_lowOf hf ht) (h.rank_lowOf hf ht) hlt hl hlow,
    n.lt_rank_of_anywhere h (h.holds_highOf hf ht) (h.rank_highOf hf ht) hlt hh hhigh⟩

section Children

variable {depth : Nat}
  (ih : ∀ {m : Manager} {f vars : Edge} {vs : List Nat}, m.WellFormed → m.Holds f →
    m.IsVarSet vars vs → f.index + vars.index < depth →
    Makes (projectWithin depth f vars) m fun ρ => m.anywhere vs f ρ)
  {m : Manager} (h : m.WellFormed) {f vars : Edge} {vs : List Nat} (hf : m.Holds f)
  (ht : f.isTerminal = false) (hset : m.IsVarSet vars vs)

include ih h hf ht hset

/-- **At the level of the first variable of a set the results for the children are joined.** The
set here is what remains of it. -/
theorem makes_joinStep (hdepth : f.index + vars.index ≤ depth) :
    Makes (joinStep (projectWithin depth) disj vars (m.lowOf f) (m.highOf f)) m
      fun ρ => m.anywhere (m.varOf f :: vs) f ρ := by
  have hilow := h.index_lowOf_lt hf ht
  have hihigh := h.index_highOf_lt hf ht
  have hhigh := h.holds_highOf hf ht
  refine (ih h (h.holds_lowOf hf ht) hset (by omega)).bind fun low m₁ n₁ hr₁ hval₁ => ?_
  have hval₁ : ∀ ρ, m₁.eval ρ low = true ↔ m.Somewhere vs ρ (m.lowOf f) := fun ρ =>
    anywhere_eq_eval_iff.mp (hval₁ ρ)
  by_cases hdone : low = .one
  · rw [if_pos hdone]
    refine (makes_pure n₁.1 hr₁).congr fun ρ => anywhere_eq_eval_iff.mpr ?_
    rw [somewhere_split h.toFounded hf ht, ← hval₁, hdone, eval_one, eq_self, true_or]
  · rw [if_neg hdone]
    refine (ih n₁.1 (n₁.holds hhigh) (n₁.2.nodes.isVarSet hset) (by omega)).bind
      fun high m₂ n₂ hr₂ hval₂ => ?_
    refine (makes_disj n₂.1 (n₂.holds hr₁) hr₂).congr fun ρ => ?_
    rw [Bool.eq_iff_iff, Bool.or_eq_true, anywhere_eq_true_iff,
      somewhere_split h.toFounded hf ht, n₂.eval_eq n₁.1 hr₁, hval₁, hval₂,
      n₁.anywhere_eq h hhigh, anywhere_eq_true_iff]

/-- **Above its set an edge keeps its variable**, with the results for the children under it. -/
theorem makes_keepStep (hlt : m.rank f < m.rank vars) (hdepth : f.index + vars.index ≤ depth) :
    Makes (keepStep (projectWithin depth) mkNode f vars (m.lowOf f) (m.highOf f)) m
      fun ρ => m.anywhere vs f ρ := by
  have hlow := h.holds_lowOf hf ht
  have hhigh := h.holds_highOf hf ht
  have hilow := h.index_lowOf_lt hf ht
  have hihigh := h.index_highOf_lt hf ht
  have hrank := rank_of_not_terminal ht (m := m)
  have hfree : m.varOf f ∉ vs := fun hmem => by
    have := h.rank_isVarSet hset _ hmem
    omega
  refine (ih h hlow hset (by omega)).bind fun low m₁ n₁ hr₁ hval₁ => ?_
  refine (ih n₁.1 (n₁.holds hhigh) (n₁.2.nodes.isVarSet hset) (by omega)).bind
    fun high m₂ n₂ hr₂ hval₂ => ?_
  have n := n₁.trans n₂
  have hval₁ : ∀ ρ, m₂.eval ρ low = m.anywhere vs (m.lowOf f) ρ := fun ρ =>
    (n₂.eval_eq n₁.1 hr₁ ρ).trans (hval₁ ρ)
  have hval₂ : ∀ ρ, m₂.eval ρ high = m.anywhere vs (m.highOf f) ρ := fun ρ =>
    (hval₂ ρ).trans (n₁.anywhere_eq h hhigh vs ρ)
  have hf₂ := n.holds hf
  have hnode := node_eq hf₂.1 hf₂.2
  obtain ⟨hav, below, below'⟩ := n.fit_keep h hf ht hnode (n₂.holds hr₁) hr₂ hval₁ hval₂
  refine ends_bind (ask_eq hnode) ?_
  refine (makes_mkNode n.1 hav (n₂.holds hr₁) hr₂ below below').congr fun ρ => ?_
  rw [show (m₂.stored f.index).var = m.varOf f from n.2.nodes.varOf_eq hf]
  rw [hval₁, hval₂, anywhere_node h.toFounded hf ht hfree]

/-- The children are what they were when the manager has grown. -/
theorem Next.makes_joinStep {m' : Manager} (n : m.Next m')
    (hdepth : f.index + vars.index ≤ depth) :
    Makes (joinStep (projectWithin depth) disj vars (m.lowOf f) (m.highOf f)) m'
      fun ρ => m.anywhere (m.varOf f :: vs) f ρ := by
  rw [← n.2.nodes.lowOf_eq hf, ← n.2.nodes.highOf_eq hf, ← n.2.nodes.varOf_eq hf]
  exact (Manager.makes_joinStep ih n.1 (n.holds hf) ht (n.2.nodes.isVarSet hset) hdepth).congr
    fun ρ => n.anywhere_eq h hf _ ρ

theorem Next.makes_keepStep {m' : Manager} (n : m.Next m') (hlt : m.rank f < m.rank vars)
    (hdepth : f.index + vars.index ≤ depth) :
    Makes (keepStep (projectWithin depth) mkNode f vars (m.lowOf f) (m.highOf f)) m'
      fun ρ => m.anywhere vs f ρ := by
  rw [← n.2.nodes.lowOf_eq hf, ← n.2.nodes.highOf_eq hf]
  refine (Manager.makes_keepStep ih n.1 (n.holds hf) ht (n.2.nodes.isVarSet hset) ?_
    hdepth).congr fun ρ => n.anywhere_eq h hf _ ρ
  rwa [n.2.rank_eq hf, n.2.rank_eq (hset.holds h.toFounded)]

end Children

/-- A leaf has its value, and so has any edge where no variable is left to quantify over. -/
theorem eval_eq_anywhere {m : Manager} {f vars : Edge} {vs : List Nat} (hset : m.IsVarSet vars vs)
    (hdone : f.isTerminal = true ∨ vars = .one) (ρ : Assignment) :
    m.eval ρ f = m.anywhere vs f ρ := by
  refine anywhere_eq_eval_iff.mpr ?_
  rcases hdone with ht | rfl
  · exact (somewhere_leaf ht).symm
  · cases vs with
    | nil => exact somewhere_nil.symm
    | cons v vs =>
        obtain ⟨_, ht, _⟩ := hset
        cases ht

/-- **Quantification within a depth.** -/
theorem makes_projectWithin : ∀ (depth : Nat) {m : Manager} {f vars : Edge} {vs : List Nat},
    m.WellFormed → m.Holds f → m.IsVarSet vars vs → f.index + vars.index < depth →
    Makes (projectWithin depth f vars) m fun ρ => m.anywhere vs f ρ := by
  intro depth
  induction depth with
  | zero => exact fun _ _ _ hlt => absurd hlt (Nat.not_lt_zero _)
  | succ depth ih =>
      intro m f vars vs h hf hset hlt
      by_cases hdone : f.isTerminal = true ∨ vars = .one
      · exact ⟨f, m, projectWithin_done hdone depth, .refl h, hf, eval_eq_anywhere hset hdone⟩
      obtain ⟨ht, hone⟩ := not_or.mp hdone
      rw [Bool.not_eq_true] at ht
      obtain ⟨rest, rfl, htv, hrest⟩ := hset.exists_cons hone
      have hvars := hset.holds h.toFounded
      have hirest := h.index_highOf_lt hvars htv
      have hrank := rank_of_not_terminal htv (m := m)
      have hrun := projectWithin_succ h.toFounded hf ht hset depth
      rcases Nat.lt_trichotomy (m.rank f) (m.order.levelAt (m.varOf vars)) with hlt' | heq | hskip
      · rw [if_neg (by omega), if_neg (by omega)] at hrun
        refine Makes.of_run_eq ?_ hrun
        refine (makes_memo h (asks_project h hf hset) (fun m' n => ?_) false).congr
          fun ρ => Bool.false_xor _
        exact n.makes_keepStep ih h hf ht hset (by omega) (by omega)
      · have hv : m.varOf f = m.varOf vars :=
          h.varOf_eq hf ht (h.allocated hvars htv) heq.symm
        rw [if_neg (by omega), if_pos heq] at hrun
        refine Makes.of_run_eq ?_ hrun
        refine (makes_memo h (asks_project h hf hset) (fun m' n => ?_) false).congr
          fun ρ => Bool.false_xor _
        rw [← hv]
        exact n.makes_joinStep ih h hf ht hrest (by omega)
      · rw [if_pos hskip] at hrun
        refine ((ih h hf hrest (by omega)).congr fun ρ => anywhere_eq_iff.mpr ?_).of_run_eq hrun
        exact (somewhere_skip h.toFounded hf hskip).symm

/-- The number of all pairs bounds the depth of the descent. -/
theorem index_lt_fuel {m : Manager} {f vars : Edge} (hf : m.Holds f) (hvars : m.Holds vars) :
    f.index + vars.index < (2 * m.numNodes + 3) * (2 * m.numNodes + 3) := by
  have hn := Nat.mul_le_mul_right (2 * m.numNodes + 3) (show 1 ≤ 2 * m.numNodes + 3 by omega)
  have := hf.2
  have := hvars.2
  omega

/-- **Quantification**: true where the edge is true for some values of the variables. -/
theorem makes_project {m : Manager} (h : m.WellFormed) {f vars : Edge} {vs : List Nat}
    (hf : m.Holds f) (hset : m.IsVarSet vars vs) :
    Makes (project f vars) m fun ρ => m.anywhere vs f ρ :=
  ends_bind (a := m) rfl
    (makes_projectWithin _ h hf hset (index_lt_fuel hf (hset.holds h.toFounded)))

end Factbase.Diagram.Manager
