import Factbase.Diagram.Manager
import Factbase.Proofs.Diagram.Chains
import Factbase.Proofs.Diagram.Levels
import Mathlib.Order.Nat

/-!
# What edges mean

An edge stands for a Boolean function of the variables: `Manager.eval m ρ e` walks from the edge
to the leaf, taking at every node the child that the assignment `ρ` asks for. This file fixes that
reading and the invariant under which it is a good one:

* `Manager.Grounded m`: children are stored before their parents, so that a walk comes to its end;
  `eval_node`, `eval_neg`: one step of it, and complements;
* `Manager.Founded m`: they stand at greater levels, too;
* `eval_congr`: **an edge depends on variables from its own level on only**;
* the questions of a manager (`node`, `low`, `high`, `level`, `cofactors`) have answers for every
  edge to a stored node, and which ones;
* `Manager.Extends`: nodes are only appended, which leaves the value of every earlier edge alone.
-/

namespace Factbase.Diagram

/-- A truth value for every variable. -/
abbrev Assignment := Nat → Bool

/-! ## 1. Edges -/

namespace Edge

variable {e : Edge}

theorem negated_neg (h : e.index ≠ 0) : (-e).negated = !e.negated := by
  have hc : e.code ≠ 0 := fun hc => h (by rw [index, hc]; rfl)
  rw [Bool.eq_iff_iff]
  simp only [negated, code_neg, decide_eq_true_eq, Bool.not_eq_true', decide_eq_false_iff_not]
  omega

theorem neg_inj {e f : Edge} : -e = -f ↔ e = f :=
  ⟨fun h => by rw [← neg_neg e, h, neg_neg], fun h => h ▸ rfl⟩

@[simp] theorem index_complementIf (flip : Bool) (e : Edge) :
    (complementIf flip e).index = e.index := by
  cases flip <;> simp [complementIf]

@[simp] theorem isTerminal_complementIf (flip : Bool) (e : Edge) :
    (complementIf flip e).isTerminal = e.isTerminal := by
  simp [isTerminal]

@[simp] theorem complementIf_complementIf (flip : Bool) (e : Edge) :
    complementIf flip (complementIf flip e) = e := by
  cases flip <;> simp [complementIf]

theorem complementIf_not (flip : Bool) (e : Edge) :
    complementIf (!flip) e = -complementIf flip e := by
  cases flip <;> simp [complementIf]

@[simp] theorem index_ofIndex (i : Nat) : (ofIndex i).index = i := by
  simp [index, ofIndex]

@[simp] theorem negated_ofIndex (i : Nat) : (ofIndex i).negated = false :=
  decide_eq_false (Int.not_lt.mpr (Int.natCast_nonneg i))

@[simp] theorem index_one : one.index = 1 := rfl

@[simp] theorem index_zero : zero.index = 1 := rfl

theorem isTerminal_eq_false : e.isTerminal = false ↔ e.index ≠ 1 := by
  simp [isTerminal]

theorem isTerminal_eq_true : e.isTerminal = true ↔ e.index = 1 := by
  simp [isTerminal]

theorem isTerminal_ofIndex {i : Nat} (h : i ≠ 1) : (ofIndex i).isTerminal = false :=
  isTerminal_eq_false.mpr (by rwa [index_ofIndex])

/-- An edge is the edge to its node, complemented or not. -/
theorem complementIf_ofIndex (e : Edge) : (ofIndex e.index).complementIf e.negated = e := by
  ext
  by_cases h : e.code < 0
  · simp only [complementIf, negated, h, decide_true, if_true, code_neg, ofIndex, index]
    omega
  · simp only [complementIf, negated, h, decide_false, Bool.false_eq_true, if_false, ofIndex,
      index]
    omega

end Edge

namespace Manager

/-! ## 2. Nodes and values -/

/-- The node at an index; the leaf stands in where there is none. -/
def stored (m : Manager) (i : Nat) : Node := (m.nodes.stored? i).getD Node.leaf

/-- The edge leads to a stored node. -/
def Holds (m : Manager) (e : Edge) : Prop := e.index ≠ 0 ∧ e.index ≤ m.numNodes

/-- The variable that an edge tests. -/
def varOf (m : Manager) (e : Edge) : Nat := (m.stored e.index).var

/-- The child of an edge where its variable is false. -/
def lowOf (m : Manager) (e : Edge) : Edge := (m.stored e.index).low.complementIf e.negated

/-- The child of an edge where its variable is true. -/
def highOf (m : Manager) (e : Edge) : Edge := (m.stored e.index).high.complementIf e.negated

/-- The level of an edge, the leaf standing below every variable. -/
def rank (m : Manager) (e : Edge) : Nat :=
  if e.isTerminal then m.numVars else m.order.levelAt (m.varOf e)

/-- The value of an edge, with a bound on the length of the walk. -/
def evalWithin (m : Manager) (ρ : Assignment) : Nat → Edge → Bool
  | 0, e => !e.negated
  | steps + 1, e =>
    if e.isTerminal then !e.negated
    else if ρ (m.varOf e) then m.evalWithin ρ steps (m.highOf e)
    else m.evalWithin ρ steps (m.lowOf e)

/-- **The value of an edge under an assignment.** Children are stored before their parents, so
that the index bounds the walk. -/
def eval (m : Manager) (ρ : Assignment) (e : Edge) : Bool := m.evalWithin ρ e.index e

/-- A stored decision: its variable is allocated, and its children are stored before it and
test variables further down. -/
structure Placed (m : Manager) (i : Nat) : Prop where
  var : m.order.Allocated (m.stored i).var
  lowHeld : m.Holds (m.stored i).low
  highHeld : m.Holds (m.stored i).high
  lowBefore : (m.stored i).low.index < i
  highBefore : (m.stored i).high.index < i
  lowBelow : m.order.levelAt (m.stored i).var < m.rank (m.stored i).low
  highBelow : m.order.levelAt (m.stored i).var < m.rank (m.stored i).high

/-- The leaf is there, levels are sound, and every decision is placed. -/
structure Founded (m : Manager) : Prop where
  order : m.order.Sound
  leaf : 1 ≤ m.numNodes
  placed : ∀ i, 2 ≤ i → i ≤ m.numNodes → m.Placed i

/-- The leaf is there, and the children of every decision are stored before it; their variables may
stand anywhere. -/
structure Grounded (m : Manager) : Prop where
  leaf : 1 ≤ m.numNodes
  low : ∀ i, 2 ≤ i → i ≤ m.numNodes → m.Holds (m.stored i).low ∧ (m.stored i).low.index < i
  high : ∀ i, 2 ≤ i → i ≤ m.numNodes → m.Holds (m.stored i).high ∧ (m.stored i).high.index < i

theorem Founded.grounded {m : Manager} (h : m.Founded) : m.Grounded where
  leaf := h.leaf
  low i hi hi' := ⟨(h.placed i hi hi').lowHeld, (h.placed i hi hi').lowBefore⟩
  high i hi hi' := ⟨(h.placed i hi hi').highHeld, (h.placed i hi hi').highBefore⟩

theorem holds_neg {m : Manager} {e : Edge} : m.Holds (-e) ↔ m.Holds e := by
  simp [Holds]

theorem holds_ofIndex {m : Manager} {i : Nat} :
    m.Holds (.ofIndex i) ↔ i ≠ 0 ∧ i ≤ m.numNodes := by
  rw [Holds, Edge.index_ofIndex]

theorem holds_complementIf {m : Manager} {flip : Bool} {e : Edge} :
    m.Holds (e.complementIf flip) ↔ m.Holds e := by
  simp [Holds]

@[simp] theorem varOf_neg (m : Manager) (e : Edge) : m.varOf (-e) = m.varOf e := by
  simp [varOf]

@[simp] theorem rank_neg (m : Manager) (e : Edge) : m.rank (-e) = m.rank e := by
  simp [rank]

@[simp] theorem rank_complementIf (m : Manager) (flip : Bool) (e : Edge) :
    m.rank (e.complementIf flip) = m.rank e := by
  cases flip <;> simp [Edge.complementIf]

theorem lowOf_neg {m : Manager} {e : Edge} (h : e.index ≠ 0) : m.lowOf (-e) = -m.lowOf e := by
  rw [lowOf, Edge.negated_neg h, Edge.complementIf_not, Edge.index_neg, lowOf]

theorem highOf_neg {m : Manager} {e : Edge} (h : e.index ≠ 0) :
    m.highOf (-e) = -m.highOf e := by
  rw [highOf, Edge.negated_neg h, Edge.complementIf_not, Edge.index_neg, highOf]

@[simp] theorem index_lowOf (m : Manager) (e : Edge) :
    (m.lowOf e).index = (m.stored e.index).low.index := by
  simp [lowOf]

@[simp] theorem index_highOf (m : Manager) (e : Edge) :
    (m.highOf e).index = (m.stored e.index).high.index := by
  simp [highOf]

theorem rank_of_not_terminal {m : Manager} {e : Edge} (h : e.isTerminal = false) :
    m.rank e = m.order.levelAt (m.varOf e) := by
  rw [rank, h]
  rfl

theorem rank_of_terminal {m : Manager} {e : Edge} (h : e.isTerminal = true) :
    m.rank e = m.numVars := by
  rw [rank, if_pos h]

@[simp] theorem rank_one (m : Manager) : m.rank .one = m.numVars := rfl

@[simp] theorem rank_zero (m : Manager) : m.rank .zero = m.numVars := rfl

@[simp] theorem eval_one (m : Manager) (ρ : Assignment) : m.eval ρ .one = true := rfl

@[simp] theorem eval_zero (m : Manager) (ρ : Assignment) : m.eval ρ .zero = false := rfl

theorem eval_leaf {m : Manager} {e : Edge} {ρ : Assignment} (ht : e.isTerminal = true) :
    m.eval ρ e = !e.negated := by
  rw [eval, Edge.isTerminal_eq_true.mp ht, evalWithin, if_pos ht]

theorem node_eq {m : Manager} {i : Nat} (h0 : i ≠ 0) (hi : i ≤ m.numNodes) :
    m.node i = .ok (m.stored i) := by
  obtain ⟨n, hn⟩ := Table.exists_stored? h0 hi
  rw [node, stored, hn, Table.value_eq_ok hn]
  rfl

theorem stored_of_node {m : Manager} {i : Nat} {n : Node} (run : m.node i = .ok n) :
    i ≤ m.numNodes ∧ m.stored i = n := by
  have h0 : i ≠ 0 := fun h0 => by rw [h0] at run; cases run
  have hi : i ≤ m.numNodes := Nat.not_lt.mp fun hlt => by
    have hnone : m.nodes.cells[i - 1]? = none :=
      Array.getElem?_eq_none (by unfold numNodes Table.size at hlt; omega)
    rw [node, Table.value, if_neg h0, hnone] at run
    cases run
  rw [node_eq h0 hi] at run
  exact ⟨hi, Except.ok.inj run⟩

theorem complement_eq {m : Manager} {e : Edge} (he : m.Holds e) : m.complement e = .ok (-e) := by
  rw [complement, if_neg]
  rintro ⟨_, hlt⟩
  exact absurd he.2 (Nat.not_le.mpr hlt)

theorem complementIf_eq {m : Manager} {e : Edge} (he : m.Holds e) (flip : Bool) :
    m.complementIf flip e = .ok (e.complementIf flip) := by
  cases flip with
  | false => rfl
  | true => exact complement_eq he

theorem two_le_index {m : Manager} {e : Edge} (he : m.Holds e) (ht : e.isTerminal = false) :
    2 ≤ e.index := by
  have := Edge.isTerminal_eq_false.mp ht
  have := he.1
  omega

/-! ## 3. The walk -/

section Grounded

variable {m : Manager} (h : m.Grounded) {e : Edge} {ρ : Assignment}

include h

/-- The children of an edge are stored, and before it. -/
theorem Grounded.lowOf_held (he : m.Holds e) (ht : e.isTerminal = false) :
    m.Holds (m.lowOf e) ∧ (m.lowOf e).index < e.index := by
  rw [lowOf, holds_complementIf, Edge.index_complementIf]
  exact h.low _ (two_le_index he ht) he.2

theorem Grounded.highOf_held (he : m.Holds e) (ht : e.isTerminal = false) :
    m.Holds (m.highOf e) ∧ (m.highOf e).index < e.index := by
  rw [highOf, holds_complementIf, Edge.index_complementIf]
  exact h.high _ (two_le_index he ht) he.2

/-- **Induction along the edges**: what holds of the leaves, and of an edge where it holds of
both children, holds of every edge to a stored node. -/
theorem Grounded.induction {motive : Edge → Prop}
    (leaf : ∀ e, m.Holds e → e.isTerminal = true → motive e)
    (node : ∀ e, m.Holds e → e.isTerminal = false → motive (m.lowOf e) → motive (m.highOf e) →
      motive e) (he : m.Holds e) : motive e := by
  generalize hn : e.index = n
  induction n using Nat.strongRecOn generalizing e with
  | _ n ih =>
    cases ht : e.isTerminal with
    | true => exact leaf e he ht
    | false =>
        obtain ⟨hlow, hlowlt⟩ := h.lowOf_held he ht
        obtain ⟨hhigh, hhighlt⟩ := h.highOf_held he ht
        rw [hn] at hlowlt hhighlt
        exact node e he ht (ih _ hlowlt hlow rfl) (ih _ hhighlt hhigh rfl)

/-- A longer bound changes nothing. -/
theorem Grounded.evalWithin_eq (he : m.Holds e) :
    ∀ steps, e.index ≤ steps → m.evalWithin ρ steps e = m.eval ρ e := by
  refine h.induction (motive := fun e => ∀ steps, e.index ≤ steps →
    m.evalWithin ρ steps e = m.eval ρ e) (fun e he ht => ?_) (fun e he ht ihl ihh => ?_) he
  · intro steps _
    have hleaf : ∀ k, m.evalWithin ρ k e = !e.negated := fun k => by
      cases k with
      | zero => rfl
      | succ k => rw [evalWithin, if_pos ht]
    rw [eval, hleaf, hleaf]
  · intro steps hs
    have hl := (h.lowOf_held he ht).2
    have hh := (h.highOf_held he ht).2
    obtain ⟨k, hk⟩ : ∃ k, e.index = k + 1 := ⟨e.index - 1, by omega⟩
    obtain ⟨k', hk'⟩ : ∃ k, steps = k + 1 := ⟨steps - 1, by omega⟩
    rw [eval, hk, hk', evalWithin, evalWithin, ht]
    rw [ihl k' (by omega), ihh k' (by omega), ihl k (by omega), ihh k (by omega)]

/-- **One step of the walk.** -/
theorem Grounded.eval_node (he : m.Holds e) (ht : e.isTerminal = false) :
    m.eval ρ e = if ρ (m.varOf e) then m.eval ρ (m.highOf e) else m.eval ρ (m.lowOf e) := by
  obtain ⟨hlow, hl⟩ := h.lowOf_held he ht
  obtain ⟨hhigh, hh⟩ := h.highOf_held he ht
  obtain ⟨k, hk⟩ : ∃ k, e.index = k + 1 := ⟨e.index - 1, by omega⟩
  rw [eval, hk, evalWithin, ht, h.evalWithin_eq hlow k (by omega),
    h.evalWithin_eq hhigh k (by omega)]
  rfl

/-- The step at a node. -/
theorem Grounded.eval_ofIndex {i : Nat} (hi : m.Holds (.ofIndex i)) (h1 : i ≠ 1) :
    m.eval ρ (.ofIndex i) = if ρ (m.stored i).var then m.eval ρ (m.stored i).high
      else m.eval ρ (m.stored i).low := by
  rw [h.eval_node hi (Edge.isTerminal_ofIndex h1), varOf, lowOf, highOf, Edge.index_ofIndex,
    Edge.negated_ofIndex]
  rfl

/-- **A complement has the opposite value.** -/
theorem Grounded.eval_neg (he : m.Holds e) : m.eval ρ (-e) = !m.eval ρ e := by
  refine h.induction (motive := fun e => m.eval ρ (-e) = !m.eval ρ e) (fun e he ht => ?_)
    (fun e he ht ihl ihh => ?_) he
  · rw [eval_leaf (by simpa using ht), eval_leaf ht, Edge.negated_neg he.1]
  · rw [h.eval_node (holds_neg.mpr he) (by simpa using ht), h.eval_node he ht, varOf_neg,
      lowOf_neg he.1, highOf_neg he.1, ihl, ihh]
    split <;> rfl

theorem Grounded.eval_complementIf (he : m.Holds e) (flip : Bool) :
    m.eval ρ (e.complementIf flip) = (flip ^^ m.eval ρ e) := by
  cases flip with
  | false => exact (Bool.false_xor _).symm
  | true => rw [Bool.true_xor]; exact h.eval_neg he

end Grounded

section Founded

variable {m : Manager} (h : m.Founded) {e : Edge} {ρ ρ' : Assignment}

include h

theorem Founded.holds_one : m.Holds .one := ⟨by decide, h.leaf⟩

theorem Founded.holds_zero : m.Holds .zero := ⟨by decide, h.leaf⟩

theorem Founded.placedAt (he : m.Holds e) (ht : e.isTerminal = false) : m.Placed e.index :=
  h.placed _ (by have := Edge.isTerminal_eq_false.mp ht; have := he.1; omega) he.2

theorem Founded.allocated (he : m.Holds e) (ht : e.isTerminal = false) :
    m.order.Allocated (m.varOf e) := (h.placedAt he ht).var

theorem Founded.holds_lowOf (he : m.Holds e) (ht : e.isTerminal = false) :
    m.Holds (m.lowOf e) := holds_complementIf.mpr (h.placedAt he ht).lowHeld

theorem Founded.holds_highOf (he : m.Holds e) (ht : e.isTerminal = false) :
    m.Holds (m.highOf e) := holds_complementIf.mpr (h.placedAt he ht).highHeld

theorem Founded.index_lowOf_lt (he : m.Holds e) (ht : e.isTerminal = false) :
    (m.lowOf e).index < e.index := by
  rw [index_lowOf]
  exact (h.placedAt he ht).lowBefore

theorem Founded.index_highOf_lt (he : m.Holds e) (ht : e.isTerminal = false) :
    (m.highOf e).index < e.index := by
  rw [index_highOf]
  exact (h.placedAt he ht).highBefore

theorem Founded.rank_lowOf (he : m.Holds e) (ht : e.isTerminal = false) :
    m.rank e < m.rank (m.lowOf e) := by
  rw [rank_of_not_terminal ht, lowOf, rank_complementIf]
  exact (h.placedAt he ht).lowBelow

theorem Founded.rank_highOf (he : m.Holds e) (ht : e.isTerminal = false) :
    m.rank e < m.rank (m.highOf e) := by
  rw [rank_of_not_terminal ht, highOf, rank_complementIf]
  exact (h.placedAt he ht).highBelow

theorem Founded.rank_lt (he : m.Holds e) (ht : e.isTerminal = false) : m.rank e < m.numVars := by
  rw [rank_of_not_terminal ht]
  exact h.order.levelAt_lt (h.allocated he ht)

theorem Founded.rank_le (he : m.Holds e) : m.rank e ≤ m.numVars := by
  cases ht : e.isTerminal with
  | true => exact (rank_of_terminal ht).le
  | false => exact (h.rank_lt he ht).le

/-- Induction along the edges. -/
theorem Founded.induction {motive : Edge → Prop}
    (leaf : ∀ e, m.Holds e → e.isTerminal = true → motive e)
    (node : ∀ e, m.Holds e → e.isTerminal = false → motive (m.lowOf e) → motive (m.highOf e) →
      motive e) (he : m.Holds e) : motive e :=
  h.grounded.induction leaf node he

theorem Founded.eval_node (he : m.Holds e) (ht : e.isTerminal = false) :
    m.eval ρ e = if ρ (m.varOf e) then m.eval ρ (m.highOf e) else m.eval ρ (m.lowOf e) :=
  h.grounded.eval_node he ht

theorem Founded.eval_neg (he : m.Holds e) : m.eval ρ (-e) = !m.eval ρ e :=
  h.grounded.eval_neg he

theorem Founded.eval_complementIf (he : m.Holds e) (flip : Bool) :
    m.eval ρ (e.complementIf flip) = (flip ^^ m.eval ρ e) :=
  h.grounded.eval_complementIf he flip

theorem Founded.eval_ofIndex {i : Nat} (hi : m.Holds (.ofIndex i)) (h1 : i ≠ 1) :
    m.eval ρ (.ofIndex i) = if ρ (m.stored i).var then m.eval ρ (m.stored i).high
      else m.eval ρ (m.stored i).low :=
  h.grounded.eval_ofIndex hi h1

/-- An edge has the value of its node, complemented or not. -/
theorem Founded.negated_xor_eval (he : m.Holds e) :
    (e.negated ^^ m.eval ρ (.ofIndex e.index)) = m.eval ρ e := by
  rw [← h.eval_complementIf (holds_ofIndex.mpr he), e.complementIf_ofIndex]

/-- **An edge depends on variables from its own level on only.** -/
theorem Founded.eval_congr (he : m.Holds e)
    (agree : ∀ v, m.order.Allocated v → m.rank e ≤ m.order.levelAt v → ρ v = ρ' v) :
    m.eval ρ e = m.eval ρ' e := by
  refine h.induction (motive := fun e => (∀ v, m.order.Allocated v →
    m.rank e ≤ m.order.levelAt v → ρ v = ρ' v) → m.eval ρ e = m.eval ρ' e)
    (fun e he ht _ => ?_) (fun e he ht ihl ihh agree => ?_) he agree
  · rw [eval_leaf ht, eval_leaf ht]
  · have hv := agree (m.varOf e) (h.allocated he ht) (rank_of_not_terminal ht).le
    have hl := h.rank_lowOf he ht
    have hh := h.rank_highOf he ht
    rw [h.eval_node he ht, h.eval_node he ht, hv,
      ihl fun v hv hle => agree v hv (by omega), ihh fun v hv hle => agree v hv (by omega)]

/-- A variable above an edge may take any value. -/
theorem Founded.eval_update (he : m.Holds e) {v : Nat} (hv : m.order.levelAt v < m.rank e)
    (b : Bool) : m.eval (Function.update ρ v b) e = m.eval ρ e := by
  refine h.eval_congr he fun w _ hw => ?_
  rw [Function.update_of_ne]
  rintro rfl
  omega

/-! ## 4. Questions -/

theorem Founded.low_eq (he : m.Holds e) (ht : e.isTerminal = false) :
    m.low e = .ok (m.lowOf e) := by
  rw [low, node_eq he.1 he.2]
  exact complementIf_eq (h.placedAt he ht).lowHeld e.negated

theorem Founded.high_eq (he : m.Holds e) (ht : e.isTerminal = false) :
    m.high e = .ok (m.highOf e) := by
  rw [high, node_eq he.1 he.2]
  exact complementIf_eq (h.placedAt he ht).highHeld e.negated

theorem Founded.level?_eq (he : m.Holds e) :
    m.level? e = .ok (if e.isTerminal then none else some (m.rank e)) := by
  cases ht : e.isTerminal with
  | true => rw [level?, ht]; rfl
  | false =>
      have hlevel := h.order.levelOf_eq (h.allocated he ht)
      rw [rank_of_not_terminal ht, level?, ht, node_eq he.1 he.2]
      show (m.order.levelOf (m.varOf e) >>= fun l => pure (some l)) = _
      rw [hlevel]
      rfl

theorem Founded.level_eq (he : m.Holds e) : m.level e = .ok (m.rank e) := by
  rw [level, h.level?_eq he]
  cases ht : e.isTerminal with
  | true => rw [rank_of_terminal ht]; rfl
  | false => rfl

/-- The children of an edge with respect to a variable that stands above it or at it. -/
def cofactorsOf (m : Manager) (e : Edge) (v : Nat) : Edge × Edge :=
  if m.order.levelAt v < m.rank e then (e, e) else (m.lowOf e, m.highOf e)

theorem Founded.varOf_eq (he : m.Holds e) (ht : e.isTerminal = false) {v : Nat}
    (hv : m.order.Allocated v) (hr : m.order.levelAt v = m.rank e) : m.varOf e = v :=
  h.order.levelAt_inj (h.allocated he ht) hv (by rw [hr, rank_of_not_terminal ht])

theorem Founded.cofactors_eq (he : m.Holds e) {v : Nat} (hv : m.order.Allocated v)
    (hle : m.order.levelAt v ≤ m.rank e) : m.cofactors e v = .ok (m.cofactorsOf e v) := by
  rw [cofactors, cofactorsOf, if_neg hv.1]
  cases ht : e.isTerminal with
  | true =>
      have hlt : m.order.levelAt v < m.numVars := h.order.levelAt_lt hv
      rw [rank_of_terminal ht, if_pos hlt]
      rfl
  | false =>
      show (m.order.levelOf v >>= fun a => m.level e >>= fun b => if a < b then _ else _) = _
      rw [h.order.levelOf_eq hv, h.level_eq he]
      show (if m.order.levelAt v < m.rank e then _ else _) = _
      by_cases hlt : m.order.levelAt v < m.rank e
      · rw [if_pos hlt, if_pos hlt]
        rfl
      · have hvar := h.varOf_eq he ht hv (by omega)
        rw [if_neg hlt, if_neg hlt, node_eq he.1 he.2]
        show (if m.varOf e ≠ v then _ else _) = _
        rw [if_neg (not_not.mpr hvar), h.low_eq he ht, h.high_eq he ht]
        rfl

end Founded

/-! ## 5. Growth -/

/-- Nodes are only appended. -/
def Extends (m m' : Manager) : Prop := m.nodes.values <+: m'.nodes.values

/-- Nodes are only appended, and the variables stay where they are. -/
structure Grows (m m' : Manager) : Prop where
  nodes : m.Extends m'
  order : m'.order = m.order

theorem Extends.refl (m : Manager) : m.Extends m := List.prefix_refl _

theorem Extends.trans {m₁ m₂ m₃ : Manager} (h : m₁.Extends m₂) (h' : m₂.Extends m₃) :
    m₁.Extends m₃ := List.IsPrefix.trans h h'

theorem Grows.refl (m : Manager) : m.Grows m := ⟨.refl m, rfl⟩

theorem Grows.trans {m₁ m₂ m₃ : Manager} (h : m₁.Grows m₂) (h' : m₂.Grows m₃) : m₁.Grows m₃ :=
  ⟨h.nodes.trans h'.nodes, h'.order.trans h.order⟩

section Extends

variable {m m' : Manager} {e : Edge}

theorem Extends.numNodes_le (h : m.Extends m') : m.numNodes ≤ m'.numNodes := by
  have := h.length_le
  rwa [Table.length_values, Table.length_values] at this

theorem Extends.holds (h : m.Extends m') (he : m.Holds e) : m'.Holds e :=
  ⟨he.1, he.2.trans h.numNodes_le⟩

/-- Stored nodes stay as they are. -/
theorem Extends.stored_eq (h : m.Extends m') {i : Nat} (h0 : i ≠ 0) (hi : i ≤ m.numNodes) :
    m'.stored i = m.stored i := by
  obtain ⟨more, hmore⟩ := h
  obtain ⟨n, hn⟩ := Table.exists_stored? h0 hi
  rw [stored, stored, hn, Table.stored?_append hmore.symm hn]

theorem Extends.varOf_eq (h : m.Extends m') (he : m.Holds e) : m'.varOf e = m.varOf e := by
  rw [varOf, varOf, h.stored_eq he.1 he.2]

theorem Extends.lowOf_eq (h : m.Extends m') (he : m.Holds e) : m'.lowOf e = m.lowOf e := by
  rw [lowOf, lowOf, h.stored_eq he.1 he.2]

theorem Extends.highOf_eq (h : m.Extends m') (he : m.Holds e) : m'.highOf e = m.highOf e := by
  rw [highOf, highOf, h.stored_eq he.1 he.2]

/-- **Earlier edges keep their values.** -/
theorem Grounded.eval_eq_of_extends (hm : m.Grounded) (h : m.Extends m') (he : m.Holds e)
    (ρ : Assignment) : m'.eval ρ e = m.eval ρ e := by
  have walk : ∀ steps {e : Edge}, m.Holds e → m'.evalWithin ρ steps e = m.evalWithin ρ steps e := by
    intro steps
    induction steps with
    | zero => intro e _; rfl
    | succ steps ih =>
        intro e he
        cases ht : e.isTerminal with
        | true => rw [evalWithin, evalWithin, if_pos ht, if_pos ht]
        | false =>
            rw [evalWithin, evalWithin, ht, h.varOf_eq he, h.lowOf_eq he, h.highOf_eq he,
              ih (hm.lowOf_held he ht).1, ih (hm.highOf_held he ht).1]
  exact walk e.index he

theorem Extends.eval_eq (h : m.Extends m') (hm : m.Founded) (he : m.Holds e) (ρ : Assignment) :
    m'.eval ρ e = m.eval ρ e :=
  hm.grounded.eval_eq_of_extends h he ρ

theorem Grows.rank_eq (h : m.Grows m') (he : m.Holds e) : m'.rank e = m.rank e := by
  rw [rank, rank, numVars, numVars, h.order, h.nodes.varOf_eq he]

theorem Grows.cofactorsOf_eq (h : m.Grows m') (he : m.Holds e) (v : Nat) :
    m'.cofactorsOf e v = m.cofactorsOf e v := by
  rw [cofactorsOf, cofactorsOf, h.order, h.rank_eq he, h.nodes.lowOf_eq he, h.nodes.highOf_eq he]

theorem Grows.placed (h : m.Grows m') {i : Nat} (h0 : i ≠ 0) (hi : i ≤ m.numNodes)
    (hp : m.Placed i) : m'.Placed i := by
  have hs := h.nodes.stored_eq h0 hi
  refine ⟨?_, ?_, ?_, ?_, ?_, ?_, ?_⟩
  · rw [hs, h.order]; exact hp.var
  · rw [hs]; exact h.nodes.holds hp.lowHeld
  · rw [hs]; exact h.nodes.holds hp.highHeld
  · rw [hs]; exact hp.lowBefore
  · rw [hs]; exact hp.highBefore
  · rw [hs, h.order, h.rank_eq hp.lowHeld]; exact hp.lowBelow
  · rw [hs, h.order, h.rank_eq hp.highHeld]; exact hp.highBelow

end Extends

end Manager

end Factbase.Diagram
