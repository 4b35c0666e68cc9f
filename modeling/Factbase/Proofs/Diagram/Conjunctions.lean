import Factbase.Proofs.Diagram.Histories

/-!
# Cubes and conjunctions

A cube is built by putting decisions on top of each other, without if-then-else and without a look
at what is there. Where a variable comes twice, its second decision is put on top of the first one.

* `conjLiterals`: the edges of literals, conjoined one by one;
* `literalNode`: the decision that a literal is put on top as;
* `Stacked`: what is kept whatever the literals are. The table still finds every decision, children
  are stored before their parents, and the edge has the value of the conjunction;
* `Broken`: a decision stands above another one of the same level, and the edge is none of those
  that were there before;
* `cube_perm`: **where no variable comes twice, the order of the literals does not matter**;
* `cube_conjunction`: **a cube always has the value of the conjunction. It is the edge that
  conjunction comes to, and the manager stays well-formed, just where no variable comes twice**;
* `cube_twice`: the shortest case, two literals of one variable.
-/

namespace Factbase.Diagram.Manager

/-- No variable comes twice. -/
def Different (literals : List Int) : Prop := literals.Pairwise fun a b => a.natAbs ≠ b.natAbs

/-- The literals are of variables that the manager has. -/
def Known (m : Manager) (literals : List Int) : Prop := ∀ l ∈ literals, m.order.Allocated l.natAbs

/-! ## 1. Literals conjoined -/

theorem literalTrue_natCast (ρ : Assignment) (v : Nat) : literalTrue ρ v = ρ v := by
  rw [literalTrue, decide_eq_false (Int.not_lt.mpr (Int.natCast_nonneg v)), Int.natAbs_natCast,
    Bool.false_xor]

theorem literalTrue_neg {ρ : Assignment} {v : Nat} (hv : v ≠ 0) : literalTrue ρ (-v) = !ρ v := by
  rw [literalTrue, decide_eq_true (by omega), Int.natAbs_neg, Int.natAbs_natCast, Bool.true_xor]

/-- The edge of a literal. -/
def literalEdge (l : Int) : Op Edge := do
  return (← mkVar l.natAbs).complementIf (decide (l < 0))

/-- The conjunction of the edges of literals. -/
def conjLiterals (literals : List Int) : Op Edge := do
  conjAll (← literals.mapM literalEdge)

section Conjoined

variable {m : Manager} (h : m.WellFormed)

include h

theorem makes_literalEdge {l : Int} (hl : m.order.Allocated l.natAbs) :
    Makes (literalEdge l) m fun ρ => literalTrue ρ l := by
  refine (makes_mkVar h hl).bind fun r m' n hr hval => ?_
  refine (makes_pure n.1 (holds_complementIf.mpr hr)).congr fun ρ => ?_
  rw [n.1.eval_complementIf hr, hval]
  rfl

/-- **The conjunction of literals, whatever they are.** -/
theorem makes_conjLiterals {literals : List Int} (hl : m.Known literals) :
    Makes (conjLiterals literals) m fun ρ => literals.all (literalTrue ρ) := by
  -- what is still to come, together with the edges made so far, is what was asked for
  have loop := Ends.mapM (f := literalEdge) (i := fun rest es m' => m.Next m' ∧
      (∀ e ∈ es, m'.Holds e) ∧ m.Known rest ∧
      ∀ ρ, ((es.all fun e => m'.eval ρ e) && rest.all (literalTrue ρ)) =
        literals.all (literalTrue ρ))
    (fun l rest es m' ⟨n, hes, hrest, hval⟩ => by
      obtain ⟨hknown, hrest⟩ := List.forall_mem_cons.mp hrest
      refine (makes_literalEdge n.1 (by rwa [n.2.order])).mono fun e m'' ⟨n', he, heval⟩ =>
        ⟨n.trans n', fun f hf => ?_, hrest, fun ρ => ?_⟩
      · rcases List.mem_append.mp hf with hf | hf
        · exact n'.holds (hes f hf)
        · rwa [List.mem_singleton.mp hf]
      · have hsame : (es.all fun e => m''.eval ρ e) = es.all fun e => m'.eval ρ e := by
          rw [Bool.eq_iff_iff, List.all_eq_true, List.all_eq_true]
          exact forall₂_congr fun f hf => by rw [n'.eval_eq n.1 (hes f hf)]
        rw [← hval ρ, List.all_append, List.all_cons, List.all_cons, List.all_nil, Bool.and_true,
          hsame, heval, Bool.and_assoc])
    literals [] m ⟨.refl h, fun e he => absurd he List.not_mem_nil, hl, fun ρ => Bool.true_and _⟩
  refine loop.bind fun es m' ⟨n, hes, _, hval⟩ => ?_
  refine (makes_conjAll n.1 hes).mono fun r m'' ⟨n', hr, hval'⟩ => ⟨n.trans n', hr, fun ρ => ?_⟩
  have hall := hval ρ
  rw [List.all_nil, Bool.and_true] at hall
  exact (hval' ρ).trans hall

end Conjoined

/-! ## 2. The decision of a literal -/

/-- The decision that puts a literal on top of a cube, and if the edge to it is complemented. -/
def literalNode (c : Edge) (l : Int) : Node × Bool :=
  if l < 0 then (⟨l.natAbs, -c, .one⟩, true)
  else if c.negated then (⟨l.natAbs, .one, -c⟩, true)
  else (⟨l.natAbs, .zero, c⟩, false)

theorem var_literalNode (c : Edge) (l : Int) : (literalNode c l).1.var = l.natAbs := by
  unfold literalNode
  split
  · rfl
  · split <;> rfl

/-- One child is a leaf, the other one leads to the cube. -/
theorem children_literalNode (c : Edge) (l : Int) :
    ((literalNode c l).1.low.index = c.index ∧ (literalNode c l).1.high.index = 1) ∨
      ((literalNode c l).1.low.index = 1 ∧ (literalNode c l).1.high.index = c.index) := by
  unfold literalNode
  split
  · exact Or.inl ⟨Edge.index_neg c, rfl⟩
  · split
    · exact Or.inr ⟨rfl, Edge.index_neg c⟩
    · exact Or.inr ⟨rfl, rfl⟩

/-- Edges to the same node are at the same level. -/
theorem rank_of_index_eq {m : Manager} {e f : Edge} (h : e.index = f.index) :
    m.rank e = m.rank f := by
  rw [rank, rank, Edge.isTerminal, Edge.isTerminal, varOf, varOf, h]

section Literal

variable {m : Manager} {c : Edge} (hc : m.Holds c) {l : Int}

include hc

theorem held_literalNode (hleaf : 1 ≤ m.numNodes) :
    m.Holds (literalNode c l).1.low ∧ m.Holds (literalNode c l).1.high := by
  rcases children_literalNode c l with ⟨hlow, hhigh⟩ | ⟨hlow, hhigh⟩
  · exact ⟨by rwa [Holds, hlow], by rw [Holds, hhigh]; exact ⟨Nat.one_ne_zero, hleaf⟩⟩
  · exact ⟨by rw [Holds, hlow]; exact ⟨Nat.one_ne_zero, hleaf⟩, by rwa [Holds, hhigh]⟩

/-- **A literal is put on top of a cube that is not false as a decision of its own.** -/
theorem addLiteral_eq (hleaf : 1 ≤ m.numNodes) (hne : c ≠ .zero) (hl : l.natAbs ≠ 0) :
    addLiteral c l m = (do
      return (Edge.ofIndex (← intern (literalNode c l).1)).complementIf (literalNode c l).2) m := by
  have hzero : m.Holds .zero := ⟨Nat.one_ne_zero, hleaf⟩
  have hneg : -c ≠ .one := fun h => hne (by rw [← Edge.neg_neg c, h, Edge.neg_one])
  unfold addLiteral literalNode mkNode shared
  by_cases hsign : l < 0
  · rw [if_pos hsign, if_pos hsign, if_neg hl, if_pos (show Edge.zero.negated = true from rfl)]
    dsimp only
    rw [ask_bind (complement_eq hc), ask_bind (complement_eq hzero), Edge.neg_zero, if_neg hneg,
      bind_assoc]
    rfl
  · rw [if_neg hsign, if_neg hsign, if_neg hl]
    cases hn : c.negated with
    | true =>
        rw [if_pos rfl, if_pos rfl]
        dsimp only
        rw [ask_bind (complement_eq hzero), ask_bind (complement_eq hc),
          Edge.neg_zero, if_neg hneg.symm, bind_assoc]
        rfl
    | false =>
        rw [if_neg Bool.false_ne_true, if_neg Bool.false_ne_true, if_neg hne.symm]
        rfl

/-- The decision has the value of the literal and the cube. -/
theorem eval_literalNode (hm : m.Grounded) {i : Nat} (hi : m.Holds (.ofIndex i)) (hi2 : 2 ≤ i)
    (hs : m.stored i = (literalNode c l).1) (ρ : Assignment) :
    m.eval ρ ((Edge.ofIndex i).complementIf (literalNode c l).2) =
      (literalTrue ρ l && m.eval ρ c) := by
  rw [hm.eval_complementIf hi, hm.eval_ofIndex hi (by omega), hs, var_literalNode, literalTrue]
  unfold literalNode
  by_cases hsign : l < 0
  · rw [if_pos hsign, decide_eq_true hsign]
    cases hv : ρ l.natAbs <;> simp [hm.eval_neg hc]
  · rw [if_neg hsign, decide_eq_false hsign]
    cases hn : c.negated <;> cases hv : ρ l.natAbs <;> simp [hm.eval_neg hc]

end Literal

/-! ## 3. Literals on top of each other -/

/-- Any decision with stored children is found or appended. -/
theorem ends_intern_grounded {m : Manager} (h : m.Consed) (hm : m.Grounded) {n : Node}
    (hlow : m.Holds n.low) (hhigh : m.Holds n.high) :
    Ends (intern n) m fun i m' => m.Grows m' ∧ m'.Consed ∧ m'.Grounded ∧ 2 ≤ i ∧ i ≤ m'.numNodes ∧
      m'.stored i = n := by
  rcases h.intern_cases hm.leaf n with ⟨i, hi, hi', hs, run⟩ | ⟨_, nodes, hvalues, hconsed, run⟩
  · exact ⟨i, m, run, .refl m, h, hm, hi, hi', hs⟩
  · have grows := grows_append hvalues
    have hsize := numNodes_append hvalues
    refine ⟨m.numNodes + 1, { m with nodes }, run, grows, hconsed, ⟨?_, ?_, ?_⟩,
      Nat.succ_le_succ hm.leaf, hsize.ge, stored_append hvalues⟩
    · exact hsize ▸ Nat.le_succ_of_le hm.leaf
    · exact forall_append hvalues
        (motive := fun i n => ({ m with nodes } : Manager).Holds n.low ∧ n.low.index < i)
        (fun i hi hi' => ⟨grows.nodes.holds (hm.low i hi hi').1, (hm.low i hi hi').2⟩)
        ⟨grows.nodes.holds hlow, Nat.lt_succ_of_le hlow.2⟩
    · exact forall_append hvalues
        (motive := fun i n => ({ m with nodes } : Manager).Holds n.high ∧ n.high.index < i)
        (fun i hi hi' => ⟨grows.nodes.holds (hm.high i hi hi').1, (hm.high i hi hi').2⟩)
        ⟨grows.nodes.holds hhigh, Nat.lt_succ_of_le hhigh.2⟩

/-- A decision that is placed was placed when it was stored. -/
theorem Grows.of_placed {m m' : Manager} (g : m.Grows m') {i : Nat} (h0 : i ≠ 0)
    (hi : i ≤ m.numNodes) (hp : m'.Placed i) : m.Placed i := by
  obtain ⟨hvar, hlow, hhigh, hbefore, hbefore', hbelow, hbelow'⟩ := hp
  rw [g.nodes.stored_eq h0 hi] at hvar hlow hhigh hbefore hbefore' hbelow hbelow'
  have hlow : m.Holds (m.stored i).low := ⟨hlow.1, by omega⟩
  have hhigh : m.Holds (m.stored i).high := ⟨hhigh.1, by omega⟩
  rw [g.order] at hvar hbelow hbelow'
  rw [g.rank_eq hlow] at hbelow
  rw [g.rank_eq hhigh] at hbelow'
  exact ⟨hvar, hlow, hhigh, hbefore, hbefore', hbelow, hbelow'⟩

/-- Some of the literals are put on top of each other, the others are still to come. -/
structure Stacked (m : Manager) (literals rest : List Int) (c : Edge) (m' : Manager) : Prop where
  grows : m.Grows m'
  consed : m'.Consed
  grounded : m'.Grounded
  held : m'.Holds c
  nonzero : c ≠ .zero
  known : m.Known rest
  value : ∀ ρ, (m'.eval ρ c && rest.all (literalTrue ρ)) = literals.all (literalTrue ρ)

/-- Where nothing is to come, the edge has the value of all the literals. -/
theorem Stacked.eval_eq {m m' : Manager} {literals : List Int} {c : Edge}
    (s : Stacked m literals [] c m') (ρ : Assignment) :
    m'.eval ρ c = literals.all (literalTrue ρ) := by
  rw [← s.value ρ, List.all_nil, Bool.and_true]

/-- The edge is none of an earlier manager, and some decision stands above one that is not below its
level. -/
structure Broken (m : Manager) (c : Edge) (m' : Manager) : Prop where
  beyond : ¬ m.Holds c
  misplaced : ∃ i, 2 ≤ i ∧ i ≤ m'.numNodes ∧ ¬ m'.Placed i

theorem Broken.not_founded {m m' : Manager} {c : Edge} (b : Broken m c m') : ¬ m'.Founded :=
  fun h => by
    obtain ⟨i, hi, hi', hnot⟩ := b.misplaced
    exact hnot (h.placed i hi hi')

/-- The literals go upwards from a level. -/
def Rising (m : Manager) (level : Nat) (literals : List Int) : Prop :=
  (∀ l ∈ literals, m.order.levelAt l.natAbs < level) ∧ m.Deepening literals

/-- The literals are in order, but two of them are at the same level, or one at that of the cube. -/
structure Crowded (m : Manager) (rest : List Int) (c : Edge) (m' : Manager) : Prop where
  wellFormed : m'.WellFormed
  sorted : rest.Pairwise fun a b => m.order.levelAt b.natAbs ≤ m.order.levelAt a.natAbs
  below : ∀ l ∈ rest, m.order.levelAt l.natAbs ≤ m'.rank c
  crowded : ¬ m.Rising (m'.rank c) rest

section Stacking

variable {m m' : Manager} (h : m.WellFormed) {literals rest : List Int} {l : Int} {c : Edge}
  (s : Stacked m literals (l :: rest) c m')

include s

/-- **One literal more.** -/
theorem Stacked.ends_addLiteral : Ends (addLiteral c l) m' fun r m'' =>
    Stacked m literals rest r m'' ∧ m'.Grows m'' ∧ r.isTerminal = false ∧
      m''.stored r.index = (literalNode c l).1 := by
  obtain ⟨hl, hrest⟩ := List.forall_mem_cons.mp s.known
  obtain ⟨hlow, hhigh⟩ := held_literalNode (l := l) s.held s.grounded.leaf
  obtain ⟨i, m'', run, grows, hconsed, hgrounded, hi, hi', hs⟩ :=
    ends_intern_grounded s.consed s.grounded hlow hhigh
  have hheld : m''.Holds (.ofIndex i) := holds_ofIndex.mpr ⟨by omega, hi'⟩
  have hindex : ((Edge.ofIndex i).complementIf (literalNode c l).2).index = i := by
    rw [Edge.index_complementIf, Edge.index_ofIndex]
  refine ⟨(Edge.ofIndex i).complementIf (literalNode c l).2, m'', ?_,
    ⟨s.grows.trans grows, hconsed, hgrounded, holds_complementIf.mpr hheld, fun hz => ?_, hrest,
      fun ρ => ?_⟩, grows, Edge.isTerminal_eq_false.mpr (by rw [hindex]; omega), by rw [hindex, hs]⟩
  · rw [addLiteral_eq s.held s.grounded.leaf s.nonzero hl.1, bind_of_ok run]
    rfl
  · rw [hz, Edge.index_zero] at hindex
    omega
  · rw [eval_literalNode (grows.nodes.holds s.held) hgrounded hheld hi hs,
      s.grounded.eval_eq_of_extends grows.nodes s.held, ← s.value ρ, List.all_cons,
      ← Bool.and_assoc, Bool.and_comm (m'.eval ρ c)]

omit s in
/-- A decision above the cube is not placed where the cube is not below its level. -/
theorem not_placed_of_rank_le {m'' : Manager} {i : Nat} (hs : m''.stored i = (literalNode c l).1)
    (hle : m''.rank c ≤ m''.order.levelAt l.natAbs) : ¬ m''.Placed i := by
  rintro ⟨_, _, _, _, _, hlow, hhigh⟩
  rw [hs, var_literalNode] at hlow hhigh
  rcases children_literalNode c l with ⟨hc, _⟩ | ⟨_, hc⟩
  · rw [rank_of_index_eq hc] at hlow
    omega
  · rw [rank_of_index_eq hc] at hhigh
    omega

include h

/-- What is broken stays broken. -/
theorem Stacked.ends_addLiteral_broken (b : Broken m c m') : Ends (addLiteral c l) m' fun r m'' =>
    Stacked m literals rest r m'' ∧ Broken m r m'' := by
  refine s.ends_addLiteral.mono fun r m'' ⟨s', grows, ht, hs⟩ => ⟨s', ⟨fun hr => ?_, ?_⟩⟩
  · -- the children of an edge that was there were there, but one of them leads to the cube
    have hp := h.placedAt hr ht
    have hstored := (s'.grows.nodes.stored_eq hr.1 hr.2).symm.trans hs
    have hlow := hp.lowHeld
    have hhigh := hp.highHeld
    rw [hstored] at hlow hhigh
    rcases children_literalNode c l with ⟨hc, _⟩ | ⟨_, hc⟩
    · exact b.beyond (by rwa [Holds, hc] at hlow)
    · exact b.beyond (by rwa [Holds, hc] at hhigh)
  · obtain ⟨i, hi, hi', hnot⟩ := b.misplaced
    exact ⟨i, hi, hi'.trans grows.nodes.numNodes_le, fun hp =>
      hnot (grows.of_placed (by omega) hi' hp)⟩

/-- **A literal at the level of the cube breaks it, a literal above the cube leaves what was crowded
for those to come.** -/
theorem Stacked.ends_addLiteral_crowded (hc : Crowded m (l :: rest) c m') :
    Ends (addLiteral c l) m' fun r m'' => Stacked m literals rest r m'' ∧
      (Broken m r m'' ∨ Crowded m rest r m'') := by
  obtain ⟨hl, _⟩ := List.forall_mem_cons.mp s.known
  obtain ⟨r, m'', run, s', grows, ht, hs⟩ := s.ends_addLiteral
  refine ⟨r, m'', run, s', ?_⟩
  by_cases hlt : m.order.levelAt l.natAbs < m'.rank c
  · refine Or.inr ⟨?_, (List.pairwise_cons.mp hc.sorted).2, ?_, fun hrising => ?_⟩
    · have hlt' : m'.order.levelAt l.natAbs < m'.rank c := by rwa [s.grows.order]
      have hl' : m'.order.Allocated l.natAbs := by rwa [s.grows.order]
      exact ((makes_addLiteral hc.wellFormed s.held hl' hlt').of_ok run).1.1
    all_goals
      have hrank : m''.rank r = m.order.levelAt l.natAbs := by
        rw [rank_of_not_terminal ht, varOf, hs, var_literalNode, s'.grows.order]
    · rw [hrank]
      exact (List.pairwise_cons.mp hc.sorted).1
    · rw [hrank] at hrising
      exact hc.crowded ⟨List.forall_mem_cons.mpr ⟨hlt, fun k hk => (hrising.1 k hk).trans hlt⟩,
        List.pairwise_cons.mpr hrising⟩
  · have hle : m''.rank c ≤ m''.order.levelAt l.natAbs := by
      rw [grows.rank_eq s.held, s'.grows.order]
      exact Nat.not_lt.mp hlt
    have hnot := not_placed_of_rank_le hs hle
    refine Or.inl ⟨fun hr => hnot ?_, r.index, two_le_index s'.held ht, s'.held.2, hnot⟩
    exact s'.grows.placed hr.1 hr.2 (h.placedAt hr ht)

end Stacking

/-! ## 4. Cubes of any literals -/

section Cube

variable {m : Manager} (h : m.WellFormed) {literals : List Int}

include h

/-- **Where a variable comes twice, a cube has the value of the conjunction, and breaks the
order.** -/
theorem ends_cube_repeated (hl : m.Known literals) (hrep : ¬ Different literals) :
    Ends (cube literals) m fun e m' => Stacked m literals [] e m' ∧ Broken m e m' := by
  obtain ⟨arranged, harranged, hperm, hsorted⟩ := exists_deepestFirst h.toFounded hl
  have hknown : m.Known arranged := fun l hmem => hl l (hperm.mem_iff.mp hmem)
  have hzero : ¬ literals.contains 0 = true := fun hmem =>
    (hl 0 (List.contains_iff_mem.mp hmem)).1 rfl
  have hcrowded : ¬ m.Rising (m.rank .one) arranged := fun hrising => by
    refine hrep ((hperm.pairwise_iff fun hne => hne.symm).mp ?_)
    exact hrising.2.imp fun hlt heq => by rw [heq] at hlt; exact Nat.lt_irrefl _ hlt
  unfold cube
  refine ends_unless hzero (ends_bind (ask_eq harranged) ?_)
  have loop := Ends.foldlM (f := addLiteral) (i := fun rest c m' => Stacked m literals rest c m' ∧
      (Broken m c m' ∨ Crowded m rest c m'))
    (fun l rest c m' ⟨s, hstate⟩ => by
      rcases hstate with b | hc
      · exact (s.ends_addLiteral_broken h b).mono fun r m'' ⟨s', b'⟩ => ⟨s', Or.inl b'⟩
      · exact s.ends_addLiteral_crowded h hc)
    arranged .one m ⟨⟨.refl m, h.consed, h.grounded, h.holds_one, by decide, hknown, fun ρ => by
      rw [eval_one, Bool.true_and, hperm.all_eq]⟩, Or.inr ⟨h, hsorted, fun l hmem =>
        (h.order.levelAt_lt (hknown l hmem)).le, hcrowded⟩⟩
  refine loop.mono fun e m' ⟨s, hstate⟩ => ⟨s, hstate.resolve_right fun hc => ?_⟩
  exact hc.crowded ⟨fun l hmem => absurd hmem List.not_mem_nil, List.Pairwise.nil⟩

/-- **Where no variable comes twice, the order of the literals does not matter.** -/
theorem cube_perm (hl : m.Known literals) (hd : Different literals) {literals' : List Int}
    (hp : literals'.Perm literals) : ∃ e m' m'', cube literals m = .ok e m' ∧ m.Next m' ∧
      cube literals' m' = .ok e m'' ∧ m'.Next m'' := by
  obtain ⟨e, m', run, n, he, hval⟩ := makes_cube h ⟨hl, hd⟩
  have hc : m'.Cubic literals :=
    ⟨fun l hmem => by rw [n.2.order]; exact hl l hmem, hd⟩
  obtain ⟨e', m'', run', n', he', hval'⟩ := makes_cube n.1 (hc.perm hp)
  have heq : e' = e := n'.1.eq_of_eval_eq he' (n'.holds he) fun ρ => by
    rw [hval', n'.eval_eq n.1 he, hval]
    exact hp.all_eq
  exact ⟨e, m', m'', run, n, heq ▸ run', n'⟩

/-- **Cubes and conjunctions.** The conjunction of literals and then their cube are both made, and
have the value that all the literals are true. The cube is the edge of the conjunction, and the
manager behind it is well-formed, just where no variable comes twice. -/
theorem cube_conjunction (hl : m.Known literals) : ∃ c m₁ e m₂,
    conjLiterals literals m = .ok c m₁ ∧ m.Next m₁ ∧ m₁.Holds c ∧
    (∀ ρ, m₁.eval ρ c = literals.all (literalTrue ρ)) ∧
    cube literals m₁ = .ok e m₂ ∧ m₁.Grows m₂ ∧ m₂.Holds e ∧
    (∀ ρ, m₂.eval ρ e = literals.all (literalTrue ρ)) ∧
    (e = c ↔ Different literals) ∧ (m₂.WellFormed ↔ Different literals) := by
  obtain ⟨c, m₁, run, n, hc, hval⟩ := makes_conjLiterals h hl
  have hl₁ : m₁.Known literals := fun l hmem => by rw [n.2.order]; exact hl l hmem
  by_cases hd : Different literals
  · obtain ⟨e, m₂, run', n', he, hval'⟩ := makes_cube n.1 ⟨hl₁, hd⟩
    have heq : e = c := n'.1.eq_of_eval_eq he (n'.holds hc) fun ρ => by
      rw [hval', n'.eval_eq n.1 hc, hval]
    exact ⟨c, m₁, e, m₂, run, n, hc, hval, run', n'.2, he, hval', iff_of_true heq hd,
      iff_of_true n'.1 hd⟩
  · obtain ⟨e, m₂, run', s, b⟩ := ends_cube_repeated n.1 hl₁ hd
    exact ⟨c, m₁, e, m₂, run, n, hc, hval, run', s.grows, s.held, s.eval_eq,
      iff_of_false (fun heq => b.beyond (heq ▸ hc)) hd,
      iff_of_false (fun hm => b.not_founded hm.toFounded) hd⟩

/-- **A variable twice.** Behind the edge of any variable, its cube with itself is another edge
than the variable, its cube with its complement is not false, and neither leaves a well-formed
manager. -/
theorem cube_twice {v : Nat} (hv : m.order.Allocated v) : ∃ x m₁, mkVar v m = .ok x m₁ ∧
    m.Next m₁ ∧ m₁.Holds x ∧ (∀ ρ, m₁.eval ρ x = ρ v) ∧
    (∃ e m₂, cube [v, v] m₁ = .ok e m₂ ∧ (∀ ρ, m₂.eval ρ e = ρ v) ∧ e ≠ x ∧ ¬ m₂.WellFormed) ∧
    (∃ e m₂, cube [v, -v] m₁ = .ok e m₂ ∧ (∀ ρ, m₂.eval ρ e = false) ∧ e ≠ .zero ∧
      ¬ m₂.WellFormed) := by
  obtain ⟨x, m₁, run, n, hx, hval⟩ := makes_mkVar h hv
  have hv₁ : m₁.order.Allocated v := by rwa [n.2.order]
  have same : ∀ l : Int, l.natAbs = v → Ends (cube [v, l]) m₁ fun e m₂ =>
      Stacked m₁ [v, l] [] e m₂ ∧ Broken m₁ e m₂ := fun l hl => by
    refine ends_cube_repeated n.1 (List.forall_mem_cons.mpr ⟨by rwa [Int.natAbs_natCast], ?_⟩)
      fun hd => ?_
    · exact List.forall_mem_singleton.mpr (by rwa [hl])
    · exact (List.pairwise_cons.mp hd).1 l List.mem_cons_self ((Int.natAbs_natCast v).trans hl.symm)
  refine ⟨x, m₁, run, n, hx, hval, ?_, ?_⟩
  · obtain ⟨e, m₂, run', s, b⟩ := same v (Int.natAbs_natCast v)
    refine ⟨e, m₂, run', fun ρ => ?_, fun he => b.beyond (he ▸ hx),
      fun hm => b.not_founded hm.toFounded⟩
    rw [s.eval_eq, List.all_cons, List.all_cons, List.all_nil, literalTrue_natCast, Bool.and_true,
      Bool.and_self]
  · obtain ⟨e, m₂, run', s, b⟩ := same (-v) (by rw [Int.natAbs_neg, Int.natAbs_natCast])
    refine ⟨e, m₂, run', fun ρ => ?_, s.nonzero, fun hm => b.not_founded hm.toFounded⟩
    rw [s.eval_eq, List.all_cons, List.all_cons, List.all_nil, literalTrue_natCast,
      literalTrue_neg hv.1, Bool.and_true, Bool.and_not_self]

end Cube

end Factbase.Diagram.Manager
