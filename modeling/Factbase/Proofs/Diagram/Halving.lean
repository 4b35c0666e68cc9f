import Factbase.Proofs.Diagram.Dependence

/-!
# Counting leaves no remainder

The count of a node is half the sum of its children's counts, and the count of a complement is what
remains of all assignments. Over natural numbers both could go wrong without a trace: a half is
rounded down, and a difference stops at zero.

* `strictCount`: the count that stops where a sum is odd or a difference would be negative;
* `strictCount_eq`: **it never stops, and comes to the same number**;
* `satCount_exact`: **over any set of variables that has those that matter, the count is the number
  of the assignments that satisfy the edge.**
-/

namespace Factbase.Diagram.Manager

/-- The count that stops where halving would leave a remainder, or where a complement would have
fewer than no models. -/
def strictWithin (m : Manager) (total : Nat) : Nat → Edge → StateT Counts (Except Fault) Nat
  | 0, _ => throw .endless
  | depth + 1, e => do
    if e = .zero then
      return 0
    if e = .one then
      return total
    if let some known := (← get)[e]? then
      return known
    let node ← m.node e.index
    let low ← m.strictWithin total depth node.low
    let high ← m.strictWithin total depth node.high
    if (low + high) % 2 ≠ 0 then
      throw .assertion
    let half := (low + high) / 2
    if e.negated ∧ total < half then
      throw .overflow
    let count := if e.negated then total - half else half
    modify (·.insert e count)
    return count

/-- The strict count of the assignments of `n` variables that satisfy `f`. -/
def strictCount (m : Manager) (f : Edge) (n : Nat) : Except Fault Nat :=
  (m.strictWithin (twoPow n) (m.numNodes + 1) f).run' ∅

/-! ## 1. The strict count -/

/-- The counts of the children of a node add up to twice the count of the node. -/
theorem card_models_children {m : Manager} (h : m.Founded) {e : Edge} (he : m.Holds e)
    {V : Finset Nat} (ht : e.isTerminal = false) (hv : m.varOf e ∈ V) :
    (m.models V (m.stored e.index).low).card + (m.models V (m.stored e.index).high).card =
      2 * (m.models V (.ofIndex e.index)).card := by
  have hindex := Edge.index_ofIndex e.index
  have hsum := two_mul_card_models h (e := .ofIndex e.index) (V := V) (holds_ofIndex.mpr he)
    (by rw [Edge.isTerminal, hindex]; exact ht) (by rw [varOf, hindex]; exact hv)
  rw [hsum, lowOf, highOf, hindex, Edge.negated_ofIndex]
  rfl

/-- From what has been counted rightly so far, both counts come to the same. -/
def Concurs (m : Manager) (V : Finset Nat) (strict plain : StateT Counts (Except Fault) Nat) :
    Prop :=
  ∀ memo, m.Counted V memo → strict memo = plain memo

section Strict

variable {m : Manager} {V : Finset Nat}

theorem concurs_refl (act : StateT Counts (Except Fault) Nat) : m.Concurs V act act :=
  fun _ _ => rfl

theorem Concurs.bind {strict plain : StateT Counts (Except Fault) Nat}
    {next next' : Nat → StateT Counts (Except Fault) Nat} {k : Nat} (h : m.Concurs V strict plain)
    (hk : m.Tallies V plain k) (hn : m.Concurs V (next k) (next' k)) :
    m.Concurs V (strict >>= next) (plain >>= next') := fun memo hm => by
  obtain ⟨memo', run, hm'⟩ := hk memo hm
  show Except.bind (strict memo) (fun r => next r.1 r.2) =
    Except.bind (plain memo) (fun r => next' r.1 r.2)
  rw [h memo hm, run]
  exact hn memo' hm'

/-- Both know what has been counted before. -/
theorem Concurs.known {strict plain : StateT Counts (Except Fault) Nat} (e : Edge)
    (h : m.Concurs V strict plain) : m.Concurs V (do
      if let some known := (← get)[e]? then
        return known
      strict) (do
      if let some known := (← get)[e]? then
        return known
      plain) := fun memo hm => by
  show (match memo[e]? with
      | some known => (pure known : StateT Counts (Except Fault) Nat)
      | _ => strict) memo =
    (match memo[e]? with
      | some known => (pure known : StateT Counts (Except Fault) Nat)
      | _ => plain) memo
  cases memo[e]? with
  | none => exact h memo hm
  | some known => rfl

theorem Concurs.ask {α : Type} {question : Except Fault α} {a : α}
    {next next' : α → StateT Counts (Except Fault) Nat} (hq : question = .ok a)
    (hn : m.Concurs V (next a) (next' a)) :
    m.Concurs V (liftM question >>= next) (liftM question >>= next') := by
  rw [hq]
  exact hn

variable (h : m.WellFormed)

include h

/-- **No sum is odd and no difference is negative**, within any depth that the count needs. -/
theorem concurs_strictWithin : ∀ (depth : Nat) {e : Edge}, m.Holds e → m.DependsOn V e →
    e.index < depth → m.Concurs V (m.strictWithin (2 ^ V.card) depth e)
      (m.countWithin (2 ^ V.card) depth e) := by
  intro depth
  induction depth with
  | zero => exact fun _ _ hlt => absurd hlt (Nat.not_lt_zero _)
  | succ depth ih =>
      intro e he hd hlt
      unfold strictWithin countWithin
      by_cases hzero : e = .zero
      · rw [if_pos hzero, if_pos hzero]
        exact concurs_refl _
      rw [if_neg hzero, if_neg hzero]
      by_cases hone : e = .one
      · rw [if_pos hone, if_pos hone]
        exact concurs_refl _
      rw [if_neg hone, if_neg hone]
      have ht : e.isTerminal = false := by
        rw [← Bool.not_eq_true, Edge.isTerminal_iff]
        exact fun hor => hor.elim hone hzero
      have placed := h.placedAt he ht
      obtain ⟨hdl, hdh⟩ := hd.stored h he ht
      have hl := placed.lowBefore
      have hh := placed.highBefore
      have hsum := card_models_children h.toFounded he ht (hd.varOf_mem h he ht)
      have hmost := card_models_le m V (.ofIndex e.index)
      refine .known e (.ask (node_eq he.1 he.2) ?_)
      refine (ih placed.lowHeld hdl (by omega)).bind
        (tallies_countWithin h depth placed.lowHeld hdl (by omega)) ?_
      refine (ih placed.highHeld hdh (by omega)).bind
        (tallies_countWithin h depth placed.highHeld hdh (by omega)) ?_
      rw [if_neg (by omega), if_neg (by omega)]
      exact concurs_refl _

/-- **The strict count comes to the same number.** -/
theorem strictCount_eq {f : Edge} (hf : m.Holds f) (hd : m.DependsOn V f) :
    m.strictCount f V.card = m.satCount f V.card := by
  have same := concurs_strictWithin h (m.numNodes + 1) hf hd (Nat.lt_succ_of_le hf.2) ∅
    fun e k hget => by rw [Std.HashMap.getElem?_empty] at hget; cases hget
  unfold strictCount satCount StateT.run'
  rw [show twoPow V.card = 2 ^ V.card from rfl, same]

end Strict

/-! ## 2. Main result -/

/-- **Model counting is exact.** Over any set of variables that has all those that matter to an edge
of a well-formed manager, be the others used or not, the count is the number of the assignments of
the set that satisfy the edge. On the way no sum of two counts is odd, and no node under a
complement has more models than there are assignments. -/
theorem satCount_exact {m : Manager} (h : m.WellFormed) {f : Edge} (hf : m.Holds f)
    {V : Finset Nat} (hV : ∀ v, m.Matters f v → v ∈ V) :
    m.satCount f V.card = .ok (m.models V f).card ∧
      m.strictCount f V.card = .ok (m.models V f).card := by
  have hd := dependsOn_of_matters h hf hV
  have hcount := satCount_eq h hf hd
  exact ⟨hcount, (strictCount_eq h hf hd).trans hcount⟩

/-- The complement of a disjunction, counted over both variables of the manager and one that it does
not have. -/
theorem satCount_exact_complement : ∃ m, Reached m [⟨3⟩, ⟨2⟩, .one, .zero] ∧ m.WellFormed ∧
    m.Holds ⟨-3⟩ ∧ (∀ v, m.Matters ⟨-3⟩ v → v ∈ ({1, 2, 7} : Finset Nat)) ∧
    m.satCount ⟨-3⟩ 3 = .ok (m.models {1, 2, 7} ⟨-3⟩).card ∧
      m.strictCount ⟨-3⟩ 3 = .ok (m.models {1, 2, 7} ⟨-3⟩).card := by
  obtain ⟨m, r, hvars, _⟩ := reached_disjunction
  have h := r.wellFormed.1
  have he : m.Holds ⟨-3⟩ := holds_neg.mpr (r.wellFormed.2 ⟨3⟩ List.mem_cons_self)
  have hV : ∀ v, m.Matters ⟨-3⟩ v → v ∈ ({1, 2, 7} : Finset Nat) := fun v hv => by
    obtain ⟨hv, hle⟩ := hv.allocated h.toFounded he
    have hle : v ≤ 2 := hle.trans_eq hvars
    simp only [Finset.mem_insert]
    omega
  have hcount := satCount_exact h he hV
  rw [show ({1, 2, 7} : Finset Nat).card = 3 from rfl] at hcount
  exact ⟨m, r, h, he, hV, hcount⟩

end Factbase.Diagram.Manager
