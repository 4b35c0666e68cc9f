import Factbase.Diagram.Reach
import Factbase.Proofs.Diagram.Canonical
import Factbase.Proofs.Outcome
import Mathlib.Data.Finset.Card
import Mathlib.Data.Finset.Range
import Mathlib.Data.List.Nodup

/-!
# Sweeps find the reachable nodes

* `Leads m roots i`: the node `i` is the leaf or can be reached from a root along children;
* `Sweep.Going`: the invariant of a sweep. What is marked or in line can be reached, and what a
  marked node leads to is marked or in line;
* `Sweep.Stops m n s marked`: after `n` turns the sweep is at its end;
* `exists_stops`, `reachable_eq`: **a sweep comes to its end, and lists exactly the nodes that can
  be reached**;
* `diagramSize_isVarSet`: a set of variables has one node for each, and the leaf.
-/

namespace Factbase.Diagram.Manager

/-- The node can be reached from the roots, or is the leaf. -/
inductive Leads (m : Manager) (roots : List Edge) : Nat → Prop
  | leaf : Leads m roots 1
  | root {f : Edge} (hf : f ∈ roots) : Leads m roots f.index
  | low {i : Nat} (hi : Leads m roots i) (h2 : 2 ≤ i) : Leads m roots (m.stored i).low.index
  | high {i : Nat} (hi : Leads m roots i) (h2 : 2 ≤ i) : Leads m roots (m.stored i).high.index

/-! ## 1. The line and the marks -/

namespace Sweep

/-- The indices in line. -/
def line (s : Sweep) : List Nat := s.front ++ s.back.reverse

/-- The index is marked. -/
def Marked (s : Sweep) (i : Nat) : Prop := s.marked[i]? = some true

/-- The index is marked or will be. -/
def Met (s : Sweep) (i : Nat) : Prop := s.Marked i ∨ i ∈ s.line

/-- The number of indices not marked yet. -/
def unmarked (s : Sweep) : Nat :=
  ((Finset.range s.marked.size).filter fun i => s.marked[i]? = some false).card

theorem pop?_eq_none {s : Sweep} (h : s.pop? = none) : s.line = [] := by
  unfold pop? at h
  unfold line
  split at h
  · cases h
  · split at h
    · cases h
    · rename_i _ hf _ hb
      rw [hf, hb]
      rfl

theorem pop?_eq_some {s t : Sweep} {i : Nat} (h : s.pop? = some (i, t)) :
    s.line = i :: t.line ∧ t.marked = s.marked := by
  unfold pop? at h
  unfold line
  split at h
  · rename_i j front hf
    obtain ⟨rfl, rfl⟩ := Prod.mk.inj (Option.some.inj h)
    rw [hf]
    exact ⟨rfl, rfl⟩
  · rename_i hf
    split at h
    · rename_i j front hb
      obtain ⟨rfl, rfl⟩ := Prod.mk.inj (Option.some.inj h)
      rw [hf, hb]
      exact ⟨by simp, rfl⟩
    · cases h

/-- The sweep behind a node that is expanded. -/
def expand (s : Sweep) (i : Nat) (n : Node) : Sweep :=
  { s with
    marked := s.marked.setIfInBounds i true
    back := n.high.index :: n.low.index :: s.back }

theorem line_expand (s : Sweep) (i : Nat) (n : Node) :
    (s.expand i n).line = s.line ++ [n.low.index, n.high.index] := by
  simp [line, expand]

theorem marked_expand {s : Sweep} {i : Nat} {n : Node} (hi : i < s.marked.size) (j : Nat) :
    (s.expand i n).Marked j ↔ j = i ∨ s.Marked j := by
  show (s.marked.setIfInBounds i true)[j]? = some true ↔ _
  by_cases e : i = j
  · rw [← e, Array.getElem?_setIfInBounds_self_of_lt hi]
    simp
  · rw [Array.getElem?_setIfInBounds_ne e]
    exact ⟨Or.inr, fun h => h.resolve_left fun e' => e e'.symm⟩

/-- Marking leaves fewer indices to be marked. -/
theorem unmarked_expand {s : Sweep} {i : Nat} {n : Node} (hi : s.marked[i]? = some false) :
    (s.expand i n).unmarked < s.unmarked := by
  have hlt : i < s.marked.size := (Array.getElem?_eq_some_iff.mp hi).1
  refine Finset.card_lt_card (Finset.ssubset_iff_of_subset ?_ |>.mpr ⟨i, ?_, ?_⟩)
  · intro j hj
    obtain ⟨hr, hj⟩ := Finset.mem_filter.mp hj
    rw [show (s.expand i n).marked = s.marked.setIfInBounds i true from rfl] at hr hj
    rw [Array.size_setIfInBounds] at hr
    refine Finset.mem_filter.mpr ⟨hr, ?_⟩
    by_cases e : i = j
    · rw [← e, Array.getElem?_setIfInBounds_self_of_lt hlt] at hj
      cases hj
    · rwa [Array.getElem?_setIfInBounds_ne e] at hj
  · exact Finset.mem_filter.mpr ⟨Finset.mem_range.mpr hlt, hi⟩
  · intro hmem
    have := (Finset.mem_filter.mp hmem).2
    rw [show (s.expand i n).marked = s.marked.setIfInBounds i true from rfl,
      Array.getElem?_setIfInBounds_self_of_lt hlt] at this
    cases this

/-- One turn: the next index is taken from the line, and a node that was not marked is expanded.
There is none with no one in line. -/
def turn (m : Manager) (s : Sweep) : Except Fault (Option Sweep) :=
  match s.pop? with
  | none => .ok none
  | some (i, t) =>
    if t.marked[i]?.getD false then .ok (some t)
    else do return some (t.expand i (← m.node i))

/-- After the given number of turns no one is in line, and these are the marks. -/
inductive Stops (m : Manager) : Nat → Sweep → Array Bool → Prop
  | empty {s : Sweep} (hs : s.turn m = .ok none) : Stops m 0 s s.marked
  | turn {n : Nat} {s t : Sweep} {marked : Array Bool} (hs : s.turn m = .ok (some t))
      (behind : Stops m n t marked) : Stops m (n + 1) s marked

theorem sweep_succ {m : Manager} (steps : Nat) (s : Sweep) : m.sweep (steps + 1) s = (do
    match ← s.turn m with
    | none => return s.marked
    | some t => m.sweep steps t) := by
  rw [sweep, turn]
  cases s.pop? with
  | none => rfl
  | some next =>
      obtain ⟨i, t⟩ := next
      dsimp only
      split
      · rfl
      · cases m.node i <;> rfl

/-- Steps that are left over change nothing. -/
theorem Stops.sweep_eq {m : Manager} {n : Nat} {s : Sweep} {marked : Array Bool}
    (h : Stops m n s marked) : ∀ {steps : Nat}, n ≤ steps → m.sweep steps s = .ok marked := by
  induction h with
  | empty hs =>
      intro steps _
      cases steps with
      | zero => rfl
      | succ steps => rw [sweep_succ, hs]; rfl
  | turn hs _ ih =>
      intro steps hle
      obtain ⟨k, rfl⟩ : ∃ k, steps = k + 1 := ⟨steps - 1, by omega⟩
      rw [sweep_succ, hs]
      exact ih (by omega)

end Sweep

/-! ## 2. The invariant -/

/-- A sweep on its way: it has met nodes that can be reached only, among them the roots and what
marked nodes lead to, and the steps left will do. -/
structure Going (m : Manager) (roots : List Edge) (steps : Nat) (s : Sweep) : Prop where
  size : s.marked.size = m.numNodes + 1
  leaf : s.Marked 1
  sound : ∀ i, s.Met i → i ≠ 0 ∧ i ≤ m.numNodes ∧ m.Leads roots i
  roots : ∀ f ∈ roots, s.Met f.index
  low : ∀ i, 2 ≤ i → s.Marked i → s.Met (m.stored i).low.index
  high : ∀ i, 2 ≤ i → s.Marked i → s.Met (m.stored i).high.index
  steps : s.line.length + 2 * s.unmarked ≤ steps

section Sweeping

variable {m : Manager} (h : m.Founded) {roots : List Edge} {steps : Nat} {s : Sweep}

/-- With no one in line, the marked nodes are those that can be reached. -/
theorem Going.marked_iff (g : m.Going roots steps s) (hline : s.line = []) (i : Nat) :
    s.Marked i ↔ m.Leads roots i := by
  have met : ∀ {j}, s.Met j → s.Marked j := fun hj =>
    hj.resolve_right (by rw [hline]; exact List.not_mem_nil)
  refine ⟨fun hi => (g.sound i (Or.inl hi)).2.2, fun hi => ?_⟩
  induction hi with
  | leaf => exact g.leaf
  | root hf => exact met (g.roots _ hf)
  | low _ h2 ih => exact met (g.low _ h2 ih)
  | high _ h2 ih => exact met (g.high _ h2 ih)

/-- Taking an index from the line that is marked loses nothing. -/
theorem Going.skip {i : Nat} {t : Sweep} (g : m.Going roots (steps + 1) s)
    (hline : s.line = i :: t.line) (hmarked : t.marked = s.marked) (hi : s.Marked i) :
    m.Going roots steps t := by
  have marked : ∀ j, t.Marked j ↔ s.Marked j := fun j => by rw [Sweep.Marked, hmarked]; rfl
  have met : ∀ j, t.Met j ↔ s.Met j := fun j => by
    rw [Sweep.Met, marked, Sweep.Met, hline, List.mem_cons]
    constructor
    · exact fun hor => hor.imp_right Or.inr
    · rintro (hj | rfl | hj)
      · exact Or.inl hj
      · exact Or.inl hi
      · exact Or.inr hj
  have hsteps := g.steps
  rw [hline, List.length_cons] at hsteps
  refine ⟨hmarked ▸ g.size, (marked 1).mpr g.leaf, fun j hj => g.sound j ((met j).mp hj),
    fun f hf => (met _).mpr (g.roots f hf),
    fun j h2 hj => (met _).mpr (g.low j h2 ((marked j).mp hj)),
    fun j h2 hj => (met _).mpr (g.high j h2 ((marked j).mp hj)), ?_⟩
  have : t.unmarked = s.unmarked := by rw [Sweep.unmarked, hmarked]; rfl
  omega

include h

/-- Expanding an index from the line puts its children in line. -/
theorem Going.expand {i : Nat} {t : Sweep} (g : m.Going roots (steps + 1) s)
    (hline : s.line = i :: t.line) (hmarked : t.marked = s.marked) (hi : ¬ s.Marked i) :
    m.Going roots steps (t.expand i (m.stored i)) := by
  obtain ⟨h0, hle, hleads⟩ := g.sound i (Or.inr (by rw [hline]; exact List.mem_cons_self))
  have h2 : 2 ≤ i := by
    have h1 : i ≠ 1 := fun e => hi (e ▸ g.leaf)
    omega
  have hlt : i < t.marked.size := by rw [hmarked, g.size]; omega
  have hp := h.placed i h2 hle
  have hfalse : t.marked[i]? = some false := by
    rw [Array.getElem?_eq_getElem hlt]
    have : t.marked[i]? ≠ some true := by rw [hmarked]; exact hi
    rw [Array.getElem?_eq_getElem hlt] at this
    cases hb : t.marked[i] with
    | false => rfl
    | true => rw [hb] at this; exact absurd rfl this
  have marked : ∀ j, (t.expand i (m.stored i)).Marked j ↔ j = i ∨ s.Marked j := fun j => by
    rw [Sweep.marked_expand hlt, Sweep.Marked, hmarked, Sweep.Marked]
  have met : ∀ j, (t.expand i (m.stored i)).Met j ↔
      s.Met j ∨ j = (m.stored i).low.index ∨ j = (m.stored i).high.index := fun j => by
    simp only [Sweep.Met, marked, Sweep.line_expand, hline, List.mem_append, List.mem_cons,
      List.not_mem_nil, or_false]
    tauto
  refine ⟨?_, (marked 1).mpr (Or.inr g.leaf), fun j hj => ?_, fun f hf =>
    (met _).mpr (Or.inl (g.roots f hf)), fun j hj2 hj => (met _).mpr ?_,
    fun j hj2 hj => (met _).mpr ?_, ?_⟩
  · show (t.marked.setIfInBounds i true).size = _
    rw [Array.size_setIfInBounds, hmarked, g.size]
  · rcases (met j).mp hj with hj | rfl | rfl
    · exact g.sound j hj
    · exact ⟨hp.lowHeld.1, hp.lowHeld.2, .low hleads h2⟩
    · exact ⟨hp.highHeld.1, hp.highHeld.2, .high hleads h2⟩
  · rcases (marked j).mp hj with rfl | hj
    · exact Or.inr (Or.inl rfl)
    · exact Or.inl (g.low j hj2 hj)
  · rcases (marked j).mp hj with rfl | hj
    · exact Or.inr (Or.inr rfl)
    · exact Or.inl (g.high j hj2 hj)
  · have hunmarked := Sweep.unmarked_expand (n := m.stored i) hfalse
    have hsteps := g.steps
    have hsame : t.unmarked = s.unmarked := by rw [Sweep.unmarked, hmarked]; rfl
    rw [hline, List.length_cons] at hsteps
    rw [Sweep.line_expand, List.length_append, List.length_cons, List.length_singleton]
    omega

/-- **A sweep takes its next turn, or no one is in line.** -/
theorem Going.exists_turn (g : m.Going roots steps s) : (s.line = [] ∧ s.turn m = .ok none) ∨
    ∃ k t, steps = k + 1 ∧ s.turn m = .ok (some t) ∧ m.Going roots k t := by
  unfold Sweep.turn
  cases hpop : s.pop? with
  | none => exact Or.inl ⟨Sweep.pop?_eq_none hpop, rfl⟩
  | some next =>
      obtain ⟨i, t⟩ := next
      obtain ⟨hline, hmarked⟩ := Sweep.pop?_eq_some hpop
      obtain ⟨h0, hle, _⟩ := g.sound i (Or.inr (by rw [hline]; exact List.mem_cons_self))
      obtain ⟨k, rfl⟩ : ∃ k, steps = k + 1 := by
        have := g.steps
        rw [hline, List.length_cons] at this
        exact ⟨steps - 1, by omega⟩
      dsimp only
      by_cases hi : s.Marked i
      · rw [if_pos (by rw [hmarked, show s.marked[i]? = some true from hi]; rfl)]
        exact Or.inr ⟨k, t, rfl, rfl, g.skip hline hmarked hi⟩
      · have hnot : ¬ t.marked[i]?.getD false = true := fun hget => hi <| by
          rw [hmarked] at hget
          unfold Sweep.Marked
          cases hb : s.marked[i]? with
          | none => rw [hb] at hget; cases hget
          | some b => rw [hb] at hget; rw [show b = true from hget]
        rw [if_neg hnot, node_eq h0 hle]
        exact Or.inr ⟨k, _, rfl, rfl, g.expand h hline hmarked hi⟩

/-- **A sweep comes to its end with exactly the nodes marked that can be reached.** -/
theorem exists_stops : ∀ (steps : Nat) {s : Sweep}, m.Going roots steps s →
    ∃ n marked, n ≤ steps ∧ Sweep.Stops m n s marked ∧ marked.size = m.numNodes + 1 ∧
      ∀ i : Nat, marked[i]? = some true ↔ m.Leads roots i := by
  intro steps
  induction steps with
  | zero =>
      intro s g
      rcases g.exists_turn h with ⟨hline, hturn⟩ | ⟨k, _, hk, _⟩
      · exact ⟨0, s.marked, le_rfl, .empty hturn, g.size, g.marked_iff hline⟩
      · cases hk
  | succ steps ih =>
      intro s g
      rcases g.exists_turn h with ⟨hline, hturn⟩ | ⟨k, t, hk, hturn, g'⟩
      · exact ⟨0, s.marked, Nat.zero_le _, .empty hturn, g.size, g.marked_iff hline⟩
      · obtain rfl := Nat.succ.inj hk
        obtain ⟨n, marked, hle, hstops, hrest⟩ := ih g'
        exact ⟨n + 1, marked, Nat.succ_le_succ hle, .turn hturn hstops, hrest⟩

/-- The sweep before its first step. -/
def Sweep.start (m : Manager) (roots : List Edge) : Sweep :=
  ⟨(Array.replicate (m.numNodes + 1) false).setIfInBounds 1 true, roots.map Edge.index, []⟩

omit h in
theorem Sweep.line_start : (start m roots).line = roots.map Edge.index := by
  rw [line, start, List.reverse_nil, List.append_nil]

theorem Sweep.marked_start (i : Nat) : (start m roots).Marked i ↔ i = 1 := by
  have hleaf := h.leaf
  have hsize : (Array.replicate (m.numNodes + 1) false).size = m.numNodes + 1 :=
    Array.size_replicate
  unfold Sweep.Marked start
  by_cases e : 1 = i
  · rw [← e, Array.getElem?_setIfInBounds_self_of_lt (by rw [hsize]; omega)]
    simp
  · rw [Array.getElem?_setIfInBounds_ne e, Array.getElem?_replicate]
    split <;> simp [Ne.symm e]

/-- Only the leaf is marked before the first step. -/
theorem Sweep.unmarked_start_le : (start m roots).unmarked ≤ m.numNodes := by
  have hleaf := h.leaf
  have hsub : (Finset.range (start m roots).marked.size).filter
      (fun i : Nat => (start m roots).marked[i]? = some false) ⊆
      (Finset.range (m.numNodes + 1)).erase 1 := fun i hi => by
    obtain ⟨hr, hi⟩ := Finset.mem_filter.mp hi
    rw [start, Array.size_setIfInBounds, Array.size_replicate] at hr
    refine Finset.mem_erase.mpr ⟨fun e => ?_, hr⟩
    rw [show (start m roots).marked[i]? = some true from (marked_start h i).mpr e] at hi
    cases hi
  have hcard := Finset.card_le_card hsub
  rw [Finset.card_erase_of_mem (Finset.mem_range.mpr (by omega)), Finset.card_range] at hcard
  exact hcard

theorem going_start (hroots : ∀ f ∈ roots, m.Holds f) :
    m.Going roots (roots.length + 2 * m.numNodes + 1) (Sweep.start m roots) := by
  have hmarked : ∀ i, (Sweep.start m roots).Marked i ↔ i = 1 := Sweep.marked_start h
  refine ⟨by simp [Sweep.start], (hmarked 1).mpr rfl, fun i hi => ?_, fun f hf => Or.inr ?_,
    fun i h2 hi => ?_, fun i h2 hi => ?_, ?_⟩
  · rcases hi with hi | hi
    · obtain rfl := (hmarked i).mp hi
      exact ⟨Nat.one_ne_zero, h.leaf, .leaf⟩
    · rw [Sweep.line_start] at hi
      obtain ⟨f, hf, rfl⟩ := List.mem_map.mp hi
      exact ⟨(hroots f hf).1, (hroots f hf).2, .root hf⟩
  · rw [Sweep.line_start]
    exact List.mem_map.mpr ⟨f, hf, rfl⟩
  · have := (hmarked i).mp hi
    omega
  · have := (hmarked i).mp hi
    omega
  · have hfew : (Sweep.start m roots).unmarked ≤ m.numNodes := Sweep.unmarked_start_le h
    rw [Sweep.line_start, List.length_map]
    omega

/-- **The reachable nodes are listed in increasing order, each once.** -/
theorem reachable_eq (hroots : ∀ f ∈ roots, m.Holds f) :
    ∃ found, m.reachable roots = .ok found ∧ found.Pairwise (· < ·) ∧
      ∀ i, i ∈ found ↔ m.Leads roots i := by
  obtain ⟨n, marked, hle, hstops, _, hiff⟩ := exists_stops h _ (going_start h hroots)
  unfold reachable
  show ∃ found, (m.sweep _ (Sweep.start m roots) >>= fun marked => _) = _ ∧ _
  rw [hstops.sweep_eq hle]
  refine ⟨_, rfl, (List.pairwise_lt_range).filter _, fun i => ?_⟩
  rw [List.mem_filter, List.mem_range, ← hiff]
  constructor
  · rintro ⟨hlt, hget⟩
    rw [Array.getElem?_eq_getElem hlt] at hget ⊢
    exact congrArg some hget
  · intro hget
    exact ⟨(Array.getElem?_eq_some_iff.mp hget).1, by rw [hget]; rfl⟩

end Sweeping

/-! ## 3. Sets of variables -/

/-- The indices of the nodes of a set with `count` variables, from the top. -/
def spine (m : Manager) : Nat → Edge → List Nat
  | 0, e => [e.index]
  | count + 1, e => e.index :: m.spine count (m.highOf e)

theorem length_spine (m : Manager) :
    ∀ (count : Nat) (e : Edge), (m.spine count e).length = count + 1
  | 0, _ => rfl
  | count + 1, e => by rw [spine, List.length_cons, length_spine m count]

section Sets

variable {m : Manager} (h : m.Founded)

include h

theorem spine_le : ∀ {vs : List Nat} {e : Edge}, m.IsVarSet e vs →
    ∀ i ∈ m.spine vs.length e, i ≤ e.index
  | [], _, _, i, hi => (List.mem_singleton.mp hi).le
  | v :: vs, e, ⟨he, ht, _, _, _, hrest⟩, i, hi => by
      rcases List.mem_cons.mp hi with rfl | hi
      · exact Nat.le_refl _
      · exact (spine_le hrest i hi).trans (h.index_highOf_lt he ht).le

theorem pairwise_spine : ∀ {vs : List Nat} {e : Edge}, m.IsVarSet e vs →
    (m.spine vs.length e).Pairwise (· > ·)
  | [], _, _ => List.pairwise_singleton _ _
  | v :: vs, e, ⟨he, ht, _, _, _, hrest⟩ => by
      refine List.pairwise_cons.mpr ⟨fun i hi => ?_, pairwise_spine hrest⟩
      exact Nat.lt_of_le_of_lt (spine_le h hrest i hi) (h.index_highOf_lt he ht)

omit h in
theorem index_mem_spine {vs : List Nat} {e : Edge} : e.index ∈ m.spine vs.length e := by
  cases vs <;> exact List.mem_cons_self

omit h in
theorem one_mem_spine : ∀ {vs : List Nat} {e : Edge}, m.IsVarSet e vs → 1 ∈ m.spine vs.length e
  | [], e, he => by rw [show e = .one from he]; exact List.mem_cons_self
  | _ :: _, _, ⟨_, _, _, _, _, hrest⟩ => List.mem_cons_of_mem _ (one_mem_spine hrest)

omit h in
/-- The children of the nodes of a set are on its spine. -/
theorem children_mem_spine : ∀ {vs : List Nat} {e : Edge}, m.IsVarSet e vs →
    ∀ i ∈ m.spine vs.length e, 2 ≤ i →
      (m.stored i).low.index = 1 ∧ (m.stored i).high.index ∈ m.spine vs.length e
  | [], e, he, i, hi, h2 => by
      rw [show e = .one from he] at hi
      have := List.mem_singleton.mp hi
      rw [Edge.index_one] at this
      omega
  | v :: vs, e, ⟨_, _, _, _, hlow, hrest⟩, i, hi, h2 => by
      rcases List.mem_cons.mp hi with rfl | hi
      · rw [← index_lowOf, hlow, ← index_highOf]
        exact ⟨rfl, List.mem_cons_of_mem _ index_mem_spine⟩
      · obtain ⟨hl, hh⟩ := children_mem_spine hrest i hi h2
        exact ⟨hl, List.mem_cons_of_mem _ hh⟩

omit h in
/-- Nodes on the spine can be reached from a root at the top. -/
theorem leads_of_mem_spine {roots : List Edge} : ∀ {vs : List Nat} {e : Edge}, m.IsVarSet e vs →
    m.Leads roots e.index → ∀ i ∈ m.spine vs.length e, m.Leads roots i
  | [], _, _, he, i, hi => by rw [List.mem_singleton.mp hi]; exact he
  | v :: vs, e, ⟨hh, ht, _, _, _, hrest⟩, he, i, hi => by
      rcases List.mem_cons.mp hi with rfl | hi
      · exact he
      · refine leads_of_mem_spine hrest ?_ i hi
        rw [index_highOf]
        exact he.high (two_le_index hh ht)

omit h in
/-- What a set leads to is on its spine. -/
theorem mem_spine_iff {vs : List Nat} {e : Edge} (he : m.IsVarSet e vs) (i : Nat) :
    i ∈ m.spine vs.length e ↔ m.Leads [e] i := by
  refine ⟨leads_of_mem_spine he (.root (List.mem_singleton_self e)) i, fun hi => ?_⟩
  induction hi with
  | leaf => exact one_mem_spine he
  | root hf => rw [List.mem_singleton.mp hf]; exact index_mem_spine
  | low _ h2 ih => rw [(children_mem_spine he _ ih h2).1]; exact one_mem_spine he
  | high _ h2 ih => exact (children_mem_spine he _ ih h2).2

/-- **A set of variables has one node for each of them, and the leaf.** -/
theorem diagramSize_isVarSet {vs : List Nat} {e : Edge} (he : m.IsVarSet e vs) (hh : m.Holds e) :
    m.diagramSize e = .ok (vs.length + 1) := by
  obtain ⟨found, run, hsorted, hmem⟩ := reachable_eq h (show ∀ f ∈ [e], m.Holds f from
    fun f hf => by rwa [List.mem_singleton.mp hf])
  unfold diagramSize
  rw [run]
  have hperm : found.Perm (m.spine vs.length e) :=
    (List.perm_ext_iff_of_nodup (hsorted.imp fun hlt => Nat.ne_of_lt hlt)
      ((pairwise_spine h he).imp fun hlt => Nat.ne_of_gt hlt)).mpr fun i => by
        rw [hmem, mem_spine_iff he]
  show Except.ok found.length = _
  rw [hperm.length_eq, length_spine]

end Sets

end Factbase.Diagram.Manager
