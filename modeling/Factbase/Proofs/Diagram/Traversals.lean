import Factbase.Proofs.Diagram.Alignment
import Factbase.Proofs.Diagram.Histories
import Factbase.Proofs.Diagram.Sweeping

/-!
# Two traversals of a diagram

The nodes of a diagram are met in two ways: breadth first by a sweep that marks them, which is what
the size of a diagram counts, and depth first by the writer of a body, which gives them ids.

* `Refers nodes k e id`: a signed id stands for an edge to the leaf or to one of the first nodes;
* `BodyLine.Tells`: a line is that of a node and comes behind those of its children;
* `leads_of_numberWithin`, `Ids.Sound.leads_iff`: **the nodes that get an id are the decisions that
  can be reached**;
* `WellFormed.traversals`: **both traversals come to their end, and they see the same nodes.**
-/

namespace Factbase.Diagram

open Text

namespace Body

/-- The id has the sign of the edge. It is 1 where the edge leads to the leaf, and else the id on
the line of one of the first nodes. -/
structure Refers (nodes : List Nat) (k : Nat) (e : Edge) (id : Int) : Prop where
  sign : id < 0 ↔ e.negated = true
  place : e.index = 1 ∧ id.natAbs = 1 ∨ ∃ i < k, nodes[i]? = some e.index ∧ id.natAbs = i + 2

end Body

/-- The line is that of the node `j`, the `k`-th one: it has the id that is next and the variable of
the node, and refers to its children by ids of earlier lines, to the high one without a sign. -/
structure BodyLine.Tells (m : Manager) (nodes : List Nat) (k j : Nat) (line : BodyLine) : Prop where
  id : line.id = k + 2
  var : line.var = (m.stored j).var
  low : Body.Refers nodes k (m.stored j).low line.low
  high : Body.Refers nodes k (m.stored j).high line.high
  positive : 0 < line.high

namespace Body

variable {m : Manager} {V : Finset Nat} {ids : Ids}

/-! ## 1. The nodes that get an id -/

/-- **Only nodes that can be reached get an id.** -/
theorem leads_of_numberWithin {roots : List Edge} : ∀ (depth : Nat) {e : Edge} {ids ids' : Ids},
    m.numberWithin depth e ids = .ok ids' → m.Leads roots e.index →
    (∀ j ∈ ids.nodes, m.Leads roots j) → ∀ j ∈ ids'.nodes, m.Leads roots j := by
  intro depth
  induction depth with
  | zero => exact fun run => by cases run
  | succ depth ih =>
      intro e ids ids' run he hids
      rw [Manager.numberWithin] at run
      by_cases hdone : (e.isTerminal || ids.idOf.contains e.index) = true
      · rw [if_pos hdone] at run
        obtain rfl := Except.ok.inj run
        exact hids
      · rw [if_neg hdone] at run
        obtain ⟨node, hnode, run⟩ := ok_of_bind run
        obtain ⟨ids₁, run₁, run⟩ := ok_of_bind run
        obtain ⟨ids₂, run₂, run⟩ := ok_of_bind run
        obtain rfl := Except.ok.inj run
        obtain ⟨_, rfl⟩ := Manager.stored_of_node hnode
        have h2 : 2 ≤ e.index := by
          have h0 : e.index ≠ 0 := fun h0 => by rw [h0] at hnode; cases hnode
          have h1 : e.index ≠ 1 := fun h1 => hdone (by rw [Edge.isTerminal_eq_true.mpr h1]; rfl)
          omega
        have hlow := ih run₁ (he.low h2) hids
        have hhigh := ih run₂ (he.high h2) hlow
        intro j hj
        rw [Ids.nodes, List.reverse_cons, ← Ids.nodes] at hj
        rcases List.mem_append.mp hj with hj | hj
        · exact hhigh j hj
        · rwa [List.mem_singleton.mp hj]

/-- An edge to one of the nodes that have an id leads to a node. -/
theorem Among.mem {nodes : List Nat} {bound : Nat} {e : Edge} (h : Among nodes bound e) :
    e.index = 1 ∨ e.index ∈ nodes :=
  h.imp Edge.isTerminal_eq_true.mp fun ⟨_, _, hget⟩ => List.mem_of_getElem? hget

/-- **The nodes that have an id, and the leaf, are those that can be reached**, where no other ones
have an id and the root is among them. -/
theorem Ids.Sound.leads_iff (hids : ids.Sound m V) {f : Edge}
    (hf : Among ids.nodes ids.nodes.length f) (honly : ∀ j ∈ ids.nodes, m.Leads [f] j) (i : Nat) :
    m.Leads [f] i ↔ i = 1 ∨ i ∈ ids.nodes := by
  constructor
  · intro hi
    induction hi with
    | leaf => exact Or.inl rfl
    | root hmem =>
        rw [List.mem_singleton.mp hmem]
        exact hf.mem
    | low _ h2 ih =>
        obtain ⟨k, hget⟩ := List.mem_iff_getElem?.mp (ih.resolve_left (by omega))
        exact (hids.children k _ hget).1.mem
    | high _ h2 ih =>
        obtain ⟨k, hget⟩ := List.mem_iff_getElem?.mp (ih.resolve_left (by omega))
        exact (hids.children k _ hget).2.mem
  · rintro (rfl | hi)
    · exact .leaf
    · exact honly i hi

/-! ## 2. The lines -/

theorem Ids.Sound.refers (hids : ids.Sound m V) {k : Nat} {e : Edge} (he : Among ids.nodes k e) :
    Refers ids.nodes k e (ids.encode e) := by
  refine ⟨by rw [← hids.encode_neg_iff he, decide_eq_true_iff], ?_⟩
  rw [ids.natAbs_encode]
  rcases hids.idAt_eq he with ⟨ht, hid⟩ | ⟨_, i, hi, hget, hid⟩
  · exact Or.inl ⟨Edge.isTerminal_eq_true.mp ht, hid⟩
  · exact Or.inr ⟨i, hi, hget, hid⟩

/-- An uncomplemented edge is referred to by a positive id. -/
theorem Refers.pos {nodes : List Nat} {k : Nat} {e : Edge} {id : Int} (h : Refers nodes k e id)
    (he : e.negated = false) : 0 < id := by
  have hsign : ¬ id < 0 := fun hlt => by
    rw [h.sign.mp hlt] at he
    cases he
  have hplace := h.place
  omega

theorem Ids.Sound.tells (hids : ids.Sound m V) (h : m.WellFormed) {k j : Nat}
    (hget : ids.nodes[k]? = some j) : (ids.lineOf m j).Tells m ids.nodes k j := by
  obtain ⟨h2, hheld, _⟩ := hids.held j (List.mem_of_getElem? hget)
  obtain ⟨hlow, hhigh⟩ := hids.children k j hget
  have hregular := h.regular j h2 (by simpa using hheld.2)
  exact ⟨hids.id_lineOf hget, rfl, hids.refers hlow, hids.refers hhigh,
    (hids.refers hhigh).pos hregular⟩

/-- The ids of the lines count from 2 on. -/
theorem Ids.Sound.map_id (hids : ids.Sound m V) :
    (ids.nodes.map (ids.lineOf m)).map BodyLine.id = List.range' 2 ids.nodes.length := by
  refine List.ext_getElem? fun k => ?_
  rw [List.map_map, List.getElem?_map]
  cases hget : ids.nodes[k]? with
  | none =>
      have hlen := List.getElem?_eq_none_iff.mp hget
      rw [List.getElem?_eq_none (by rwa [List.length_range'])]
      rfl
  | some j =>
      rw [List.getElem?_range' (List.getElem?_eq_some_iff.mp hget).1, Option.map_some,
        Function.comp_apply, hids.id_lineOf hget]
      congr 1
      omega

end Body

/-! ## 3. Main result -/

namespace Manager

open Body

variable {m : Manager}

/-- **A sweep comes to its end**, after a number of turns, and stays there with more steps. It lists
the nodes that can be reached. -/
theorem Founded.sweep_stops (h : m.Founded) {roots : List Edge} (hroots : ∀ f ∈ roots, m.Holds f) :
    ∃ n marked found, Sweep.Stops m n (Sweep.start m roots) marked ∧
      (∀ steps, n ≤ steps → m.sweep steps (Sweep.start m roots) = .ok marked) ∧
      m.reachable roots = .ok found ∧ found.Nodup ∧
      (∀ i : Nat, i ∈ found ↔ marked[i]? = some true) ∧ ∀ i, i ∈ found ↔ m.Leads roots i := by
  obtain ⟨n, marked, _, hstops, _, hmarked⟩ := exists_stops h _ (going_start h hroots)
  obtain ⟨found, run, hsorted, hfound⟩ := reachable_eq h hroots
  exact ⟨n, marked, found, hstops, fun _ hle => hstops.sweep_eq hle, run,
    hsorted.imp Nat.ne_of_lt, fun i => (hfound i).trans (hmarked i).symm, hfound⟩

/-- **A body has a line for every decision that can be reached**, one less than the size. -/
theorem WellFormed.body_lists (h : m.WellFormed) {f : Edge} (hf : m.Holds f) :
    ∃ b nodes, m.body f = .ok b ∧ m.diagramSize f = .ok (b.lines.length + 1) ∧
      nodes.length = b.lines.length ∧ nodes.Nodup ∧ (∀ j, j ∈ nodes ↔ j ≠ 1 ∧ m.Leads [f] j) ∧
      (∀ (k j : Nat) (line : BodyLine), nodes[k]? = some j → b.lines[k]? = some line →
        line.Tells m nodes k j) ∧
      b.lines.map BodyLine.id = List.range' 2 b.lines.length ∧
      Refers nodes nodes.length f b.root := by
  obtain ⟨ids, run, hids, _, hamong⟩ := exists_numberWithin h (m.numNodes + 1) hf
    (h.dependsOn hf) (Nat.lt_succ_of_le hf.2) sound_empty
  have honly := leads_of_numberWithin _ run (.root (List.mem_singleton_self f))
    fun j hj => absurd hj List.not_mem_nil
  have hleads := hids.leads_iff hamong honly
  have hone : 1 ∉ ids.nodes := fun hmem => by
    have := (hids.held 1 hmem).1
    omega
  have hlen : (ids.bodyOf m f).lines.length = ids.nodes.length := List.length_map _
  refine ⟨_, ids.nodes, hids.body_eq run, ?_, hlen.symm, hids.nodup, fun j => ?_,
    fun k j line hget hline => ?_, ?_, hids.refers hamong⟩
  · obtain ⟨found, hfound, hsorted, hmem⟩ := reachable_eq h.toFounded
      (List.forall_mem_singleton.mpr hf)
    have hperm : found.Perm (1 :: ids.nodes) :=
      (List.perm_ext_iff_of_nodup (hsorted.imp Nat.ne_of_lt)
        (List.nodup_cons.mpr ⟨hone, hids.nodup⟩)).mpr fun i => by
          rw [hmem, hleads, List.mem_cons]
    rw [diagramSize, hfound, hlen]
    exact congrArg Except.ok hperm.length_eq
  · rw [hleads]
    refine ⟨fun hj => ⟨fun heq => hone (heq ▸ hj), Or.inr hj⟩, fun ⟨hne, hj⟩ => hj.resolve_left hne⟩
  · obtain rfl : ids.lineOf m j = line := by
      rw [show (ids.bodyOf m f).lines = ids.nodes.map (ids.lineOf m) from rfl, List.getElem?_map,
        hget] at hline
      exact Option.some.inj hline
    exact hids.tells h hget
  · rw [hlen]
    exact hids.map_id

/-- **Both traversals see the same nodes.** From any list of roots the sweep comes to its end after
finitely many turns, however many it is granted, and lists exactly the nodes that can be reached
from the roots along children, and the leaf. The body of an edge is written, and has one line less
than the edge has nodes: one for every decision that can be reached, children before their parents.
The ids count from 2 on, and an edge refers to 1 or to the id of an earlier line, the high one
without a sign. -/
theorem WellFormed.traversals (h : m.WellFormed) :
    (∀ roots : List Edge, (∀ f ∈ roots, m.Holds f) → ∃ n marked found,
      Sweep.Stops m n (Sweep.start m roots) marked ∧
      (∀ steps, n ≤ steps → m.sweep steps (Sweep.start m roots) = .ok marked) ∧
      m.reachable roots = .ok found ∧ found.Nodup ∧
      (∀ i : Nat, i ∈ found ↔ marked[i]? = some true) ∧ ∀ i, i ∈ found ↔ m.Leads roots i) ∧
    ∀ f : Edge, m.Holds f → ∃ b nodes, m.body f = .ok b ∧
      m.diagramSize f = .ok (b.lines.length + 1) ∧
      nodes.length = b.lines.length ∧ nodes.Nodup ∧ (∀ j, j ∈ nodes ↔ j ≠ 1 ∧ m.Leads [f] j) ∧
      (∀ (k j : Nat) (line : BodyLine), nodes[k]? = some j → b.lines[k]? = some line →
        line.Tells m nodes k j) ∧
      b.lines.map BodyLine.id = List.range' 2 b.lines.length ∧
      Refers nodes nodes.length f b.root ∧
      splitLines b.render.toList = (spaced [(toString b.lines.length).toList,
        (toString b.numVars).toList] :: b.lines.map fun line => spaced line.fields) ++
        [(toString b.root).toList] := by
  refine ⟨fun roots hroots => h.toFounded.sweep_stops hroots, fun f hf => ?_⟩
  obtain ⟨b, nodes, run, hsize, hlen, hnodup, hnodes, htells, hids, hroot⟩ := h.body_lists hf
  refine ⟨b, nodes, run, hsize, hlen, hnodup, hnodes, htells, hids, hroot, ?_⟩
  rw [splitLines_render, Body.fields, List.map_cons, List.map_append, List.map_map,
    List.map_singleton, List.cons_append, spaced_singleton]
  rfl

/-- The traversals from the edges of a disjunction of two variables and of its second variable. -/
theorem traversals_disjunction : ∃ m, Reached m [⟨3⟩, ⟨2⟩, .one, .zero] ∧ m.WellFormed ∧
    (∃ found, m.reachable [⟨3⟩, ⟨2⟩] = .ok found ∧ ∀ i, i ∈ found ↔ m.Leads [⟨3⟩, ⟨2⟩] i) ∧
    ∃ b, m.body ⟨3⟩ = .ok b ∧ m.diagramSize ⟨3⟩ = .ok (b.lines.length + 1) ∧
      b.lines.map BodyLine.id = List.range' 2 b.lines.length := by
  obtain ⟨m, r, _, _⟩ := reached_disjunction
  obtain ⟨h, hrefs⟩ := r.wellFormed
  obtain ⟨hsweep, hbody⟩ := h.traversals
  obtain ⟨_, _, found, _, _, run, _, _, hfound⟩ := hsweep [⟨3⟩, ⟨2⟩] fun f hf =>
    hrefs f (show f ∈ [⟨3⟩, ⟨2⟩] ++ [Edge.one, .zero] from List.mem_append_left _ hf)
  obtain ⟨b, _, run', hsize, _, _, _, _, hids, _⟩ := hbody ⟨3⟩ (hrefs ⟨3⟩ List.mem_cons_self)
  exact ⟨m, r, h, ⟨found, run, hfound⟩, b, run', hsize, hids⟩

end Manager

end Factbase.Diagram
