import Factbase.Proofs.Diagram.Counting
import Factbase.Proofs.Diagram.Graphs

/-!
# Diagrams through text

A diagram that one manager writes is rebuilt by another one, whatever variables stand there for
the writer's and in whatever order.

* `Ids.Sound`: what the writer knows of the nodes that have a number;
* `exists_numberWithin`, `exists_body`: every diagram has a body;
* `exists_proper_body`: **a diagram is written as a proper body with its values**;
* `ends_readBody_body`: **reading a written diagram gives an edge with its values.**
-/

namespace Factbase.Diagram

namespace Body

/-! ## 1. Numbers of nodes -/

/-- The nodes that have a number, in the order of the ids. -/
def Ids.nodes (ids : Ids) : List Nat := ids.met.reverse

/-- The edge leads to a leaf or to one of the first nodes. -/
def Among (nodes : List Nat) (bound : Nat) (e : Edge) : Prop :=
  e.isTerminal = true ∨ ∃ k, k < bound ∧ nodes[k]? = some e.index

theorem Among.append {nodes : List Nat} {bound bound' : Nat} {e : Edge}
    (h : Among nodes bound e) (more : List Nat) (hle : bound ≤ bound') :
    Among (nodes ++ more) bound' e := by
  refine h.imp id fun ⟨k, hk, hget⟩ => ⟨k, Nat.lt_of_lt_of_le hk hle, ?_⟩
  rwa [List.getElem?_append_left (List.getElem?_eq_some_iff.mp hget).1]

/-- What the writer knows of the nodes that have a number. -/
structure Ids.Sound (ids : Ids) (m : Manager) (V : Finset Nat) : Prop where
  /-- The ids count the nodes. -/
  idOf : ∀ j id : Nat, ids.idOf[j]? = some id ↔ ∃ k, ids.nodes[k]? = some j ∧ id = k + 2
  held : ∀ j ∈ ids.nodes, 2 ≤ j ∧ m.Holds (.ofIndex j) ∧ m.DependsOn V (.ofIndex j)
  /-- Children have a number before their parents. -/
  children : ∀ k j : Nat, ids.nodes[k]? = some j →
    Among ids.nodes k (m.stored j).low ∧ Among ids.nodes k (m.stored j).high

section Numbering

variable {ids : Ids} {m : Manager} {V : Finset Nat} {e : Edge}

theorem sound_empty : Ids.Sound {} m V where
  idOf j id := by simp [Ids.nodes]
  held j hj := absurd hj List.not_mem_nil
  children k j hget := by simp [Ids.nodes] at hget

theorem Ids.Sound.contains_iff (h : ids.Sound m V) (j : Nat) :
    ids.idOf.contains j = true ↔ j ∈ ids.nodes := by
  rw [Std.HashMap.contains_eq_isSome_getElem?, Option.isSome_iff_exists, List.mem_iff_getElem?]
  simp only [h.idOf]
  exact ⟨fun ⟨_, k, hget, _⟩ => ⟨k, hget⟩, fun ⟨k, hget⟩ => ⟨_, k, hget, rfl⟩⟩

/-- No node has two numbers. -/
theorem Ids.Sound.nodup (h : ids.Sound m V) : ids.nodes.Nodup := by
  refine List.nodup_iff_getElem?_ne_getElem?.mpr fun i k hik hk heq => ?_
  have hget : ids.nodes[k]? = some ids.nodes[k] := List.getElem?_eq_getElem hk
  have hi := (h.idOf _ _).mpr ⟨i, heq.trans hget, rfl⟩
  have hk := (h.idOf _ _).mpr ⟨k, hget, rfl⟩
  rw [hi] at hk
  have := Option.some.inj hk
  omega

theorem Ids.Sound.length_lt (h : ids.Sound m V) (hleaf : 1 ≤ m.numNodes) :
    ids.nodes.length < m.numNodes := by
  have hsub : ids.nodes ⊆ List.range' 2 (m.numNodes - 1) := fun j hj => by
    obtain ⟨h2, hheld, _⟩ := h.held j hj
    have hle : j ≤ m.numNodes := by simpa using hheld.2
    rw [List.mem_range'_1]
    omega
  have hlen := (h.nodup.subperm hsub).length_le
  rw [List.length_range'] at hlen
  omega

/-- A node whose children have numbers gets the next one. -/
theorem Ids.Sound.insert (h : ids.Sound m V) {j : Nat} (hnew : j ∉ ids.nodes)
    (hj : 2 ≤ j ∧ m.Holds (.ofIndex j) ∧ m.DependsOn V (.ofIndex j))
    (hlow : Among ids.nodes ids.nodes.length (m.stored j).low)
    (hhigh : Among ids.nodes ids.nodes.length (m.stored j).high) :
    Ids.Sound ⟨ids.idOf.insert j (ids.met.length + 2), j :: ids.met⟩ m V := by
  have hnodes : Ids.nodes ⟨ids.idOf.insert j (ids.met.length + 2), j :: ids.met⟩ =
      ids.nodes ++ [j] := List.reverse_cons
  have hlen : ids.nodes.length = ids.met.length := List.length_reverse
  have hget : ∀ k i : Nat, (ids.nodes ++ [j])[k]? = some i ↔
      ids.nodes[k]? = some i ∨ k = ids.met.length ∧ i = j := fun k i => by
    rw [List.getElem?_append, hlen]
    split
    · exact ⟨Or.inl, fun hk => hk.resolve_right fun ⟨_, _⟩ => by omega⟩
    · rw [List.getElem?_eq_none (by omega : ids.nodes.length ≤ k), List.getElem?_singleton]
      split
      · simp only [Option.some.injEq, reduceCtorEq, false_or]
        omega
      · simp only [reduceCtorEq, false_or, false_iff]
        omega
  constructor
  · intro i id
    rw [hnodes, Std.HashMap.getElem?_insert]
    simp only [hget]
    by_cases hij : j = i
    · subst hij
      rw [if_pos (beq_self_eq_true j), Option.some.injEq]
      constructor
      · rintro rfl
        exact ⟨ids.met.length, Or.inr ⟨rfl, rfl⟩, rfl⟩
      · rintro ⟨k, hk | ⟨rfl, _⟩, rfl⟩
        · exact absurd (List.mem_of_getElem? hk) hnew
        · rfl
    · rw [if_neg (by rwa [beq_iff_eq]), h.idOf]
      refine exists_congr fun k => and_congr_left fun _ => ?_
      exact ⟨Or.inl, fun hk => hk.resolve_right fun ⟨_, hji⟩ => hij hji.symm⟩
  · rw [hnodes]
    intro i hi
    rcases List.mem_append.mp hi with hi | hi
    · exact h.held i hi
    · obtain rfl := List.mem_singleton.mp hi
      exact hj
  · rw [hnodes]
    intro k i hki
    rcases (hget k i).mp hki with hki | ⟨rfl, rfl⟩
    · exact (h.children k i hki).imp (·.append _ (Nat.le_refl k)) (·.append _ (Nat.le_refl k))
    · rw [← hlen]
      exact ⟨hlow.append _ (Nat.le_refl _), hhigh.append _ (Nat.le_refl _)⟩

/-- The ids after a number was given to an edge's node and to those below it. -/
structure Ids.Numbered (ids ids' : Ids) (m : Manager) (V : Finset Nat) (e : Edge) : Prop where
  sound : ids'.Sound m V
  /-- Earlier numbers stay, and no node above the edge gets one. -/
  more : ∃ new, ids'.nodes = ids.nodes ++ new ∧ ∀ j ∈ new, j ≤ e.index
  among : Among ids'.nodes ids'.nodes.length e

/-- **A node gets a number after its children.** -/
theorem exists_numberWithin (h : m.WellFormed) : ∀ (depth : Nat) {e : Edge} {ids : Ids},
    m.Holds e → m.DependsOn V e → e.index < depth → ids.Sound m V →
    ∃ ids', m.numberWithin depth e ids = .ok ids' ∧ ids.Numbered ids' m V e := by
  intro depth
  induction depth with
  | zero => exact fun _ _ hlt => absurd hlt (Nat.not_lt_zero _)
  | succ depth ih =>
      intro e ids he hd hlt hids
      rw [Manager.numberWithin]
      by_cases hdone : (e.isTerminal || ids.idOf.contains e.index) = true
      · rw [if_pos hdone]
        refine ⟨ids, rfl, hids, ⟨[], (List.append_nil _).symm, fun j hj => by cases hj⟩, ?_⟩
        refine (Bool.or_eq_true _ _ ▸ hdone).imp id fun hmem => ?_
        obtain ⟨k, hget⟩ := List.mem_iff_getElem?.mp ((hids.contains_iff _).mp hmem)
        exact ⟨k, (List.getElem?_eq_some_iff.mp hget).1, hget⟩
      · rw [if_neg hdone]
        obtain ⟨ht, hnew⟩ : e.isTerminal = false ∧ ids.idOf.contains e.index = false := by
          rwa [Bool.not_eq_true, Bool.or_eq_false_iff] at hdone
        have hplaced := h.placedAt he ht
        obtain ⟨hdlow, hdhigh⟩ := hd.stored h he ht
        obtain ⟨ids₁, hrun₁, hsound₁, ⟨new₁, hnodes₁, hle₁⟩, hlow⟩ :=
          ih hplaced.lowHeld hdlow (by have := hplaced.lowBefore; omega) hids
        obtain ⟨ids₂, hrun₂, hsound₂, ⟨new₂, hnodes₂, hle₂⟩, hhigh⟩ :=
          ih hplaced.highHeld hdhigh (by have := hplaced.highBefore; omega) hsound₁
        -- the nodes that got a number below stand before this one
        have hfresh : e.index ∉ ids₂.nodes := by
          rw [hnodes₂, hnodes₁, List.mem_append, List.mem_append]
          rintro ((hmem | hmem) | hmem)
          · rw [(hids.contains_iff _).mpr hmem] at hnew
            cases hnew
          · exact absurd (hle₁ _ hmem) (Nat.not_le.mpr hplaced.lowBefore)
          · exact absurd (hle₂ _ hmem) (Nat.not_le.mpr hplaced.highBefore)
        have hself : 2 ≤ e.index ∧ m.Holds (.ofIndex e.index) ∧
            m.DependsOn V (.ofIndex e.index) := by
          have hflip : Edge.ofIndex e.index = e.complementIf e.negated := by
            rw [← Edge.complementIf_complementIf e.negated (.ofIndex e.index),
              e.complementIf_ofIndex]
          rw [hflip]
          exact ⟨Manager.two_le_index he ht, Manager.holds_complementIf.mpr he,
            hd.complementIf h he e.negated⟩
        have hsound := hsound₂.insert hfresh hself
          (by rw [hnodes₂]; exact hlow.append _ (by simp)) hhigh
        refine ⟨_, bind_eq_ok (Manager.node_eq he.1 he.2)
          (bind_eq_ok hrun₁ (bind_eq_ok hrun₂ rfl)), hsound,
          ⟨new₁ ++ new₂ ++ [e.index], ?_, ?_⟩, Or.inr ⟨ids₂.nodes.length, ?_, ?_⟩⟩
        · rw [Ids.nodes, List.reverse_cons, ← Ids.nodes, hnodes₂, hnodes₁]
          simp only [List.append_assoc]
        · intro j hj
          simp only [List.mem_append, List.mem_singleton] at hj
          rcases hj with (hj | hj) | rfl
          · exact Nat.le_of_lt (Nat.lt_of_le_of_lt (hle₁ j hj) hplaced.lowBefore)
          · exact Nat.le_of_lt (Nat.lt_of_le_of_lt (hle₂ j hj) hplaced.highBefore)
          · exact Nat.le_refl _
        · simp [Ids.nodes]
        · rw [Ids.nodes, List.reverse_cons, ← Ids.nodes, List.getElem?_append_right (Nat.le_refl _),
            Nat.sub_self]
          rfl

/-! ## 2. Bodies -/

/-- The id of the node that an edge leads to. -/
def Ids.idAt (ids : Ids) (e : Edge) : Nat :=
  if e.isTerminal then 1 else ids.idOf.getD e.index 0

theorem Ids.encode_eq (ids : Ids) (e : Edge) :
    ids.encode e = if e.negated then -(ids.idAt e : Int) else ids.idAt e := rfl

theorem Ids.natAbs_encode (ids : Ids) (e : Edge) : (ids.encode e).natAbs = ids.idAt e := by
  rw [encode_eq]
  split
  · rw [Int.natAbs_neg, Int.natAbs_natCast]
  · exact Int.natAbs_natCast _

/-- The id of an edge to one of the first nodes. -/
theorem Ids.Sound.idAt_eq (h : ids.Sound m V) {bound : Nat} (he : Among ids.nodes bound e) :
    (e.isTerminal = true ∧ ids.idAt e = 1) ∨ (e.isTerminal = false ∧
      ∃ k, k < bound ∧ ids.nodes[k]? = some e.index ∧ ids.idAt e = k + 2) := by
  unfold idAt
  cases ht : e.isTerminal with
  | true => exact Or.inl ⟨rfl, rfl⟩
  | false =>
      obtain ⟨k, hk, hget⟩ := he.resolve_left (by rw [ht]; exact Bool.false_ne_true)
      refine Or.inr ⟨rfl, k, hk, hget, ?_⟩
      rw [if_neg Bool.false_ne_true, Std.HashMap.getD_eq_getD_getElem?,
        (h.idOf _ _).mpr ⟨k, hget, rfl⟩]
      rfl

theorem Ids.Sound.leads_encode (h : ids.Sound m V) {bound : Nat} (he : Among ids.nodes bound e) :
    Leads (bound + 2) (ids.encode e) := by
  unfold Leads
  rw [← Int.natAbs_ne_zero, ids.natAbs_encode]
  rcases h.idAt_eq he with ⟨_, hid⟩ | ⟨_, k, hk, _, hid⟩ <;> omega

/-- The sign of an id is that of the edge. -/
theorem Ids.Sound.encode_neg_iff (h : ids.Sound m V) {bound : Nat}
    (he : Among ids.nodes bound e) : decide (ids.encode e < 0) = e.negated := by
  have hpos : 0 < ids.idAt e := by
    rcases h.idAt_eq he with ⟨_, hid⟩ | ⟨_, k, hk, _, hid⟩ <;> omega
  rw [ids.encode_eq]
  cases e.negated with
  | true => exact decide_eq_true (by rw [if_pos rfl]; omega)
  | false => exact decide_eq_false (by rw [if_neg Bool.false_ne_true]; omega)

/-- The line of a node. -/
def Ids.lineOf (ids : Ids) (m : Manager) (j : Nat) : BodyLine :=
  ⟨ids.idOf.getD j 0, (m.stored j).var, ids.encode (m.stored j).low, ids.encode (m.stored j).high⟩

/-- The body of an edge, given the ids. -/
def Ids.bodyOf (ids : Ids) (m : Manager) (f : Edge) : Body :=
  ⟨m.numVars, ids.nodes.map (ids.lineOf m), ids.encode f⟩

/-- The body behind a numbering. -/
theorem Ids.Sound.body_eq (hids : ids.Sound m V) {f : Edge}
    (run : m.numberWithin (m.numNodes + 1) f {} = .ok ids) : m.body f = .ok (ids.bodyOf m f) := by
  refine bind_eq_ok run (bind_eq_ok (mapM_eq_ok fun j hj => ?_) rfl)
  obtain ⟨_, hheld, _⟩ := hids.held j hj
  have hnode := Manager.node_eq hheld.1 hheld.2
  rw [Edge.index_ofIndex] at hnode
  exact bind_eq_ok hnode rfl

/-- **Every diagram has a body.** -/
theorem exists_body (h : m.WellFormed) {f : Edge} (hf : m.Holds f) (hd : m.DependsOn V f) :
    ∃ ids : Ids, m.body f = .ok (ids.bodyOf m f) ∧ ids.Sound m V ∧
      Among ids.nodes ids.nodes.length f := by
  obtain ⟨ids, hrun, hsound, _, hamong⟩ :=
    exists_numberWithin h (m.numNodes + 1) hf hd (Nat.lt_succ_of_le hf.2) sound_empty
  exact ⟨ids, hsound.body_eq hrun, hsound, hamong⟩

theorem Ids.Sound.id_lineOf (hids : ids.Sound m V) {k j : Nat} (hget : ids.nodes[k]? = some j) :
    (ids.lineOf m j).id = k + 2 := by
  show ids.idOf.getD j 0 = k + 2
  rw [Std.HashMap.getD_eq_getD_getElem?, (hids.idOf _ _).mpr ⟨k, hget, rfl⟩]
  rfl

/-- The variable of a numbered node is one of those that the values depend on. -/
theorem Ids.Sound.var_mem (hids : ids.Sound m V) (h : m.WellFormed) {j : Nat}
    (hj : j ∈ ids.nodes) : (m.stored j).var ∈ V ∧ m.order.Allocated (m.stored j).var := by
  obtain ⟨h2, hheld, hdj⟩ := hids.held j hj
  have ht : (Edge.ofIndex j).isTerminal = false := Edge.isTerminal_ofIndex (by omega)
  have hmem := hdj.varOf_mem h hheld ht
  have halloc := h.allocated hheld ht
  rw [Manager.varOf, Edge.index_ofIndex] at hmem halloc
  exact ⟨hmem, halloc⟩

/-- **The body is a proper one**, where the manager is not too large. -/
theorem Ids.Sound.proper (hids : ids.Sound m V) (h : m.WellFormed) {f : Edge}
    (hf : Among ids.nodes ids.nodes.length f) (hnodes : m.numNodes < twoPow 31)
    (hvars : m.numVars < twoPow 32) (hfields : ∀ v ∈ V, m.order.Allocated v → v < twoPow 31) :
    (ids.bodyOf m f).Proper := by
  have hcount := hids.length_lt h.leaf
  have hlen : (ids.bodyOf m f).lines.length = ids.nodes.length := List.length_map _
  refine ⟨fun k line hline => ?_, ?_, hvars, fun line hline => ?_, by rw [hlen]; omega⟩
  · obtain ⟨j, hget, rfl⟩ := Option.map_eq_some_iff.mp ((List.getElem?_map ..).symm.trans hline)
    obtain ⟨h2, hheld, _⟩ := hids.held j (List.mem_of_getElem? hget)
    obtain ⟨hlow, hhigh⟩ := hids.children k j hget
    have hvar := (h.placed j h2 (by simpa using hheld.2)).var
    exact ⟨hids.id_lineOf hget, ⟨hvar.1, hvar.2⟩, hids.leads_encode hlow, hids.leads_encode hhigh⟩
  · rw [hlen]
    exact hids.leads_encode hf
  · obtain ⟨j, hj, rfl⟩ := List.mem_map.mp hline
    obtain ⟨hmem, halloc⟩ := hids.var_mem h hj
    exact hfields _ hmem halloc

end Numbering

/-! ## 3. Values -/

section Values

variable {A : Manager} {ids : Ids} {V : Finset Nat} (hA : A.WellFormed) (hids : ids.Sound A V)
  {σ : Assignment} {e : Edge}

include hids

theorem Ids.Sound.two_le_id {lines : List Nat} (hsub : ∀ j ∈ lines, j ∈ ids.nodes) :
    ∀ line ∈ lines.map (ids.lineOf A), 2 ≤ line.id := by
  intro line hline
  obtain ⟨j, hj, rfl⟩ := List.mem_map.mp hline
  obtain ⟨k, hget⟩ := List.mem_iff_getElem?.mp (hsub j hj)
  rw [hids.id_lineOf hget]
  omega

include hA

/-- A node has the value of its line where the lines before give the values of its children. -/
theorem Ids.Sound.eval_line {k j : Nat} (hget : ids.nodes[k]? = some j) (lines : List BodyLine)
    (ih : ∀ {e : Edge}, A.Holds e → Among ids.nodes k e →
      walk σ lines (ids.encode e) = A.eval σ e) :
    walk σ lines (if σ (ids.lineOf A j).var then (ids.lineOf A j).high else (ids.lineOf A j).low) =
      A.eval σ (.ofIndex j) := by
  obtain ⟨h2, hheld, _⟩ := hids.held j (List.mem_of_getElem? hget)
  obtain ⟨hlow, hhigh⟩ := hids.children k j hget
  have hplaced := hA.placed j h2 (Manager.holds_ofIndex.mp hheld).2
  rw [hA.eval_ofIndex hheld (by omega)]
  cases hv : σ (A.stored j).var with
  | true => exact (if_pos hv ▸ ih hplaced.highHeld hhigh)
  | false => exact (if_neg (ne_true_of_eq_false hv) ▸ ih hplaced.lowHeld hlow)

omit hA in
/-- A leaf has its value behind any lines. -/
theorem Ids.Sound.walk_of_terminal (ht : e.isTerminal = true) {nodes : List Nat}
    (hsub : ∀ j ∈ nodes, j ∈ ids.nodes) :
    walk σ (nodes.map (ids.lineOf A)).reverse (ids.encode e) = A.eval σ e := by
  have hid : (ids.encode e).natAbs = 1 := by rw [ids.natAbs_encode, Ids.idAt, if_pos ht]
  have hlines : ∀ line ∈ (nodes.map (ids.lineOf A)).reverse, 2 ≤ line.id := fun line hline =>
    hids.two_le_id hsub line (List.mem_reverse.mp hline)
  rw [walk_leaf hid hlines, Manager.eval_leaf ht,
    ← hids.encode_neg_iff (show Among ids.nodes 0 e from .inl ht), ← decide_not]
  exact decide_eq_decide.mpr (by omega)

/-- **The lines of the first nodes have the values of the edges to them.** -/
theorem Ids.Sound.walk_eq (k : Nat) : ∀ {e : Edge}, A.Holds e → Among ids.nodes k e →
    walk σ ((ids.nodes.take k).map (ids.lineOf A)).reverse (ids.encode e) = A.eval σ e := by
  induction k with
  | zero =>
      intro e _ hamong
      rcases hamong with ht | ⟨i, hi, _⟩
      · exact hids.walk_of_terminal ht fun _ hj => List.mem_of_mem_take hj
      · omega
  | succ k ih =>
      intro e he hamong
      rcases hids.idAt_eq hamong with ⟨ht, _⟩ | ⟨ht, i, hi, hget, hid⟩
      · exact hids.walk_of_terminal ht fun _ hj => List.mem_of_mem_take hj
      cases hlast : ids.nodes[k]? with
      | none =>
          have hlt := (List.getElem?_eq_some_iff.mp hget).1
          have hik : i < k := Nat.lt_of_lt_of_le hlt (List.getElem?_eq_none_iff.mp hlast)
          rw [List.take_add_one, hlast, Option.toList_none, List.append_nil]
          exact ih he (.inr ⟨i, hik, hget⟩)
      | some j =>
          rw [List.take_add_one, hlast, Option.toList_some, List.map_append, List.reverse_append,
            List.map_singleton, List.reverse_singleton, List.singleton_append]
          by_cases hik : i = k
          · -- the edge leads to the last of these nodes
            subst hik
            obtain rfl := Option.some.inj (hget.symm.trans hlast)
            rw [walk, ids.natAbs_encode, hid, hids.id_lineOf hget, if_pos rfl,
              hids.encode_neg_iff hamong, hids.eval_line hA hget _ ih, hA.negated_xor_eval he]
          · rw [walk_of_ne (by rw [ids.natAbs_encode, hid, hids.id_lineOf hlast]; omega)]
            exact ih he (.inr ⟨i, by omega, hget⟩)

/-- **A body that is written has the values of its diagram.** -/
theorem Ids.Sound.value_bodyOf {f : Edge} (hf : A.Holds f)
    (hamong : Among ids.nodes ids.nodes.length f) : (ids.bodyOf A f).value σ = A.eval σ f := by
  have h : walk σ _ _ = A.eval σ f := hids.walk_eq hA ids.nodes.length hf hamong
  rwa [List.take_length] at h

end Values

end Body

namespace Manager

/-- Edges to all nodes have codes of 32 bits. -/
def Addressable (m : Manager) : Prop := m.numNodes < twoPow 31

/-- So they are in a manager of few variables. -/
theorem WellFormed.addressable {m : Manager} (h : m.WellFormed) (hvars : m.numVars ≤ 4) :
    m.Addressable := by
  have hpow : 2 ^ 2 ^ m.numVars ≤ 2 ^ 2 ^ 4 :=
    Nat.pow_le_pow_right (by decide) (Nat.pow_le_pow_right (by decide) hvars)
  exact Nat.lt_of_le_of_lt (h.numNodes_le.trans hpow) (by decide)

/-- A set has a node for every variable, and the leaf. -/
theorem IsVarSet.length_lt_index {m : Manager} (h : m.Founded) : ∀ {vs : List Nat} {e : Edge},
    m.IsVarSet e vs → vs.length < e.index
  | [], e, he => by
      rw [show e = .one from he]
      decide
  | _ :: vs, e, ⟨he, ht, _, _, _, hrest⟩ => by
      have hlt := h.index_highOf_lt he ht
      have hvs := hrest.length_lt_index h
      rw [List.length_cons]
      omega

section Written

variable {A : Manager} (hA : A.WellFormed) {f : Edge} (hf : A.Holds f) {V : Finset Nat}
  (hd : A.DependsOn V f) (hnodes : A.Addressable) (hvars : A.numVars < twoPow 32)
  (hfields : ∀ v ∈ V, A.order.Allocated v → v < twoPow 31)

include hA hf hd hnodes hvars hfields

/-- **A diagram is written as a proper body with its values**, over the variables that they depend
on. -/
theorem exists_proper_body :
    ∃ b, A.body f = .ok b ∧ b.Proper ∧ (∀ line ∈ b.lines, line.var ∈ V) ∧
      ∀ σ, b.value σ = A.eval σ f := by
  obtain ⟨ids, hrun, hids, hamong⟩ := Body.exists_body hA hf hd
  refine ⟨_, hrun, hids.proper hA hamong hnodes hvars hfields, fun line hline => ?_,
    fun σ => hids.value_bodyOf hA hf hamong⟩
  obtain ⟨j, hj, rfl⟩ := List.mem_map.mp hline
  exact (hids.var_mem hA hj).1

/-- **Reading a written diagram gives an edge with its values**, whatever stands for its
variables. -/
theorem ends_readBody_body {B : Manager} (hB : B.WellFormed) {remap : Nat → Option Nat}
    (hmap : ∀ v ∈ V, ∃ w, remap v = some w ∧ B.order.Allocated w) :
    ∃ b, A.body f = .ok b ∧
      Ends (readBody remap ((Text.splitLines b.render.toList).map some)) B fun result B' =>
        B.Next B' ∧ ∃ g, result = .ok g ∧ B'.Holds g ∧
          ∀ ρ, B'.eval ρ g = A.eval (Body.carried remap ρ) f := by
  obtain ⟨b, hbody, hproper, htested, hvalue⟩ := exists_proper_body hA hf hd hnodes hvars hfields
  refine ⟨b, hbody, (ends_readBody_spelled hB hproper.spelledBy_render hproper.graph
    fun line hline => hmap _ (htested line hline)).mono fun result B' ⟨n, g, hresult, hg, hval⟩ =>
      ⟨n, g, hresult, hg, fun ρ => (hval ρ).trans (hvalue _)⟩⟩

end Written

end Manager

end Factbase.Diagram
