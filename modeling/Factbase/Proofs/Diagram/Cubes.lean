import Factbase.Proofs.Diagram.Quantifier

/-!
# Cubes and sets of variables

A cube is built from the deepest literal up, so that every literal is put on top of what is there.

* `literalTrue`: what a signed variable says;
* `exists_deepestFirst`: **the literals are arranged by level**, whatever their order was;
* `makes_cube`: **a cube is the conjunction of its literals**;
* `ends_varCube`: **a set of variables has one decision for each of them**, from the top;
* `varSetOfWords_eq`: a word below `twoPow 31` is the literal of its own variable, and
  `bmod_of_large`: any other one is the complement of another variable, or of the same one at
  `twoPow 31`.

What is built needs literals of pairwise different variables.
-/

namespace Factbase.Diagram.Manager

/-- What a literal says: `v` that the variable `v` is true, `-v` that it is false. -/
def literalTrue (ρ : Assignment) (l : Int) : Bool := decide (l < 0) ^^ ρ l.natAbs

/-- Literals of different variables that the manager has. -/
structure Cubic (m : Manager) (literals : List Int) : Prop where
  allocated : ∀ l ∈ literals, m.order.Allocated l.natAbs
  different : literals.Pairwise fun a b => a.natAbs ≠ b.natAbs

/-- Literals from the deepest level up. -/
def Deepening (m : Manager) (literals : List Int) : Prop :=
  literals.Pairwise fun a b => m.order.levelAt b.natAbs < m.order.levelAt a.natAbs

/-! ## 1. Arranging literals -/

theorem Cubic.perm {m : Manager} {literals literals' : List Int} (h : m.Cubic literals)
    (p : literals'.Perm literals) : m.Cubic literals' :=
  ⟨fun l hl => h.allocated l (p.mem_iff.mp hl),
    (p.pairwise_iff fun hne => hne.symm).mpr h.different⟩

section Arranging

variable {m : Manager} (h : m.Founded) {literals : List Int}

include h

/-- **The literals are arranged by level**, whatever they are. -/
theorem exists_deepestFirst (hl : ∀ l ∈ literals, m.order.Allocated l.natAbs) :
    ∃ arranged, m.deepestFirst literals = .ok arranged ∧ arranged.Perm literals ∧
      arranged.Pairwise fun a b => m.order.levelAt b.natAbs ≤ m.order.levelAt a.natAbs := by
  unfold deepestFirst
  by_cases hshort : literals.length < 2
  · rw [if_pos hshort]
    refine ⟨literals, rfl, .refl _, ?_⟩
    cases literals with
    | nil => exact .nil
    | cons l rest =>
        have hnil : rest = [] := List.length_eq_zero_iff.mp (by
          rw [List.length_cons] at hshort
          omega)
        rw [hnil]
        exact List.pairwise_singleton _ _
  · rw [if_neg hshort]
    have hplaced : literals.mapM (fun l => do return (← m.order.levelOf l.natAbs, l)) =
        Except.ok (ε := Fault) (literals.map fun l => (m.order.levelAt l.natAbs, l)) :=
      mapM_eq_ok fun l hmem => by rw [h.order.levelOf_eq (hl l hmem)]; rfl
    rw [hplaced]
    generalize hp : literals.map (fun l => (m.order.levelAt l.natAbs, l)) = placed
    have hperm := List.mergeSort_perm placed fun a b => decide (b.1 ≤ a.1)
    have hsorted : (placed.mergeSort fun a b => decide (b.1 ≤ a.1)).Pairwise
        fun a b => decide (b.1 ≤ a.1) = true := List.pairwise_mergeSort
      (fun a b c hab hbc => decide_eq_true ((of_decide_eq_true hbc).trans (of_decide_eq_true hab)))
      (fun a b => by
        rw [Bool.or_eq_true, decide_eq_true_iff, decide_eq_true_iff]
        exact Nat.le_total _ _) placed
    have hback : (placed.mergeSort fun a b => decide (b.1 ≤ a.1)).map (·.2) |>.Perm literals := by
      refine (hperm.map _).trans ?_
      rw [← hp, List.map_map]
      exact .of_eq (List.map_id _)
    refine ⟨_, rfl, hback, List.pairwise_map.mpr ?_⟩
    refine hsorted.imp_of_mem fun {a b} ha hb hle => ?_
    have hlevel : ∀ x ∈ placed.mergeSort fun a b => decide (b.1 ≤ a.1),
        m.order.levelAt x.2.natAbs = x.1 := fun x hx => by
      have hx := hperm.mem_iff.mp hx
      rw [← hp, List.mem_map] at hx
      obtain ⟨l, _, rfl⟩ := hx
      rfl
    rw [hlevel a ha, hlevel b hb]
    exact of_decide_eq_true hle

/-- Literals of different variables in order of their levels go strictly upwards. -/
theorem Cubic.deepening (hc : m.Cubic literals) (sorted : literals.Pairwise fun a b =>
    m.order.levelAt b.natAbs ≤ m.order.levelAt a.natAbs) : m.Deepening literals := by
  refine (sorted.and hc.different).imp_of_mem fun {a b} ha hb ⟨hle, hne⟩ => ?_
  refine Nat.lt_of_le_of_ne hle fun e => hne ?_
  exact (h.order.levelAt_inj (hc.allocated b hb) (hc.allocated a ha) e).symm

/-- So they are arranged. -/
theorem deepestFirst_eq (hc : m.Cubic literals) : ∃ arranged,
    m.deepestFirst literals = .ok arranged ∧ arranged.Perm literals ∧ m.Deepening arranged := by
  obtain ⟨arranged, run, hperm, hsorted⟩ := exists_deepestFirst h hc.allocated
  exact ⟨arranged, run, hperm, (hc.perm hperm).deepening h hsorted⟩

end Arranging

/-! ## 2. Putting literals on top -/

section Literals

variable {m : Manager} (h : m.WellFormed) {c : Edge} (hc : m.Holds c)

include h hc

/-- **A literal on top of a cube below it.** -/
theorem makes_addLiteral {l : Int} (hl : m.order.Allocated l.natAbs)
    (below : m.order.levelAt l.natAbs < m.rank c) :
    Makes (addLiteral c l) m fun ρ => literalTrue ρ l && m.eval ρ c := by
  have hlt := h.order.levelAt_lt hl
  unfold addLiteral
  by_cases hneg : l < 0
  · rw [if_pos hneg]
    refine (makes_mkNode h hl hc h.holds_zero below hlt).congr fun ρ => ?_
    rw [literalTrue, decide_eq_true hneg, eval_zero]
    cases ρ l.natAbs <;> cases m.eval ρ c <;> rfl
  · rw [if_neg hneg]
    refine (makes_mkNode h hl h.holds_zero hc hlt below).congr fun ρ => ?_
    rw [literalTrue, decide_eq_false hneg, eval_zero]
    cases ρ l.natAbs <;> cases m.eval ρ c <;> rfl

end Literals

/-- The literal of another variable does not depend on this one. -/
theorem literalTrue_update {ρ : Assignment} {l : Int} {v : Nat} (hne : l.natAbs ≠ v) (b : Bool) :
    literalTrue (Function.update ρ v b) l = literalTrue ρ l := by
  rw [literalTrue, Function.update_of_ne hne, literalTrue]

/-- Literals still to come, which all belong above the cube that is there. -/
structure Topping (m : Manager) (rest : List Int) (c : Edge) (m' : Manager) : Prop where
  next : m.Next m'
  held : m'.Holds c
  cubic : m'.Cubic rest
  deepening : m'.Deepening rest
  below : ∀ l ∈ rest, m'.order.levelAt l.natAbs < m'.rank c

/-- Nothing is there before the first literal. -/
theorem topping_start {m : Manager} (h : m.WellFormed) {literals : List Int}
    (hc : m.Cubic literals) (hd : m.Deepening literals) : m.Topping literals .one m :=
  ⟨.refl h, h.holds_one, hc, hd, fun l hl => h.order.levelAt_lt (hc.allocated l hl)⟩

theorem Topping.step {m m' m'' : Manager} {rest : List Int} {l : Int} {c r : Edge}
    (t : m.Topping (l :: rest) c m') (n : m'.Next m'') (hr : m''.Holds r)
    (below : ∀ k ∈ rest, m'.order.levelAt k.natAbs < m''.rank r) : m.Topping rest r m'' := by
  refine ⟨t.next.trans n, hr, ⟨fun k hk => ?_, (List.pairwise_cons.mp t.cubic.different).2⟩, ?_,
    ?_⟩
  · rw [n.2.order]
    exact t.cubic.allocated k (List.mem_cons_of_mem _ hk)
  · rw [Deepening, n.2.order]
    exact (List.pairwise_cons.mp t.deepening).2
  · rwa [n.2.order]

/-- Adding a literal leaves room for those above it. -/
theorem Topping.ends_addLiteral {m m' : Manager} {rest : List Int} {l : Int} {c : Edge}
    (t : m.Topping (l :: rest) c m') : Ends (addLiteral c l) m' fun r m'' =>
      m'.Next m'' ∧ m.Topping rest r m'' ∧
      ∀ ρ, m''.eval ρ r = (literalTrue ρ l && m'.eval ρ c) := by
  have hl := t.cubic.allocated l List.mem_cons_self
  have hbelow := t.below l List.mem_cons_self
  have hlt := t.next.1.order.levelAt_lt hl
  refine (makes_addLiteral t.next.1 t.held hl hbelow).mono fun r m'' ⟨n, hr, hval⟩ => ?_
  refine ⟨n, t.step n hr fun k hk => ?_, hval⟩
  have hk := (List.pairwise_cons.mp t.deepening).1 k hk
  refine n.1.lt_rank_of_independent hr (by rw [n.numVars_eq]; exact hk.trans hlt)
    fun w hw ρ b => ?_
  rw [n.2.order] at hw
  have hne : l.natAbs ≠ w := fun e => by rw [← e] at hw; omega
  rw [hval, hval]
  show (literalTrue _ l && m'.eval _ c) = (literalTrue ρ l && m'.eval ρ c)
  rw [literalTrue_update hne, t.next.1.eval_update t.held (by omega)]

/-- A cube is asked for by literals of variables only. -/
theorem Cubic.contains_zero {m : Manager} {literals : List Int} (hc : m.Cubic literals) :
    ¬ literals.contains 0 = true := fun hmem =>
  (hc.allocated 0 (List.contains_iff_mem.mp hmem)).1 rfl

/-- **A cube is the conjunction of its literals.** -/
theorem makes_cube {m : Manager} (h : m.WellFormed) {literals : List Int}
    (hc : m.Cubic literals) : Makes (cube literals) m fun ρ => literals.all (literalTrue ρ) := by
  unfold cube
  obtain ⟨arranged, harranged, hperm, hdeep⟩ := deepestFirst_eq h.toFounded hc
  refine ends_unless hc.contains_zero (ends_bind (ask_eq harranged) ?_)
  -- what is there and what is still to come are together what was asked for
  have loop := Ends.foldlM (f := addLiteral) (i := fun rest c m' => m.Topping rest c m' ∧
      ∀ ρ, (m'.eval ρ c && rest.all (literalTrue ρ)) = arranged.all (literalTrue ρ))
    (fun l rest c m' ⟨t, hall⟩ => t.ends_addLiteral.mono fun r m'' ⟨_, t', hval⟩ => by
      refine ⟨t', fun ρ => ?_⟩
      rw [← hall ρ, List.all_cons, ← Bool.and_assoc, Bool.and_comm (m'.eval ρ c), hval])
    arranged .one m ⟨topping_start h (hc.perm hperm) hdeep, fun ρ => Bool.true_and _⟩
  refine loop.mono fun r m' ⟨t, hall⟩ => ⟨t.next, t.held, fun ρ => ?_⟩
  have hval := hall ρ
  rw [List.all_nil, Bool.and_true, hperm.all_eq] at hval
  exact hval

/-! ## 3. Sets of variables -/

section Sets

variable {m : Manager} (h : m.WellFormed)

include h

/-- **The value of a set is that all its variables are true.** -/
theorem WellFormed.eval_isVarSet {ρ : Assignment} : ∀ {vs : List Nat} {e : Edge},
    m.IsVarSet e vs → m.eval ρ e = vs.all ρ
  | [], e, he => by rw [show e = .one from he]; rfl
  | v :: vs, e, ⟨he, ht, _, hv, hlow, hrest⟩ => by
      rw [h.eval_node he ht, hv, hlow, eval_zero, WellFormed.eval_isVarSet hrest, List.all_cons]
      cases ρ v <;> rfl

omit h in
/-- A set is never complemented. -/
theorem IsVarSet.not_negated {vs : List Nat} {e : Edge} (he : m.IsVarSet e vs) :
    e.negated = false := by
  cases vs with
  | nil => rw [show e = .one from he]; rfl
  | cons v vs => exact he.2.2.1

/-- **A variable on top of a set below it.** -/
theorem ends_addVariable {c : Edge} {vs : List Nat} (hc : m.IsVarSet c vs) {v : Nat}
    (hv : m.order.Allocated v) (below : m.order.levelAt v < m.rank c) :
    Ends (addLiteral c v) m fun r m' => m.Next m' ∧ m'.IsVarSet r (v :: vs) := by
  have hheld := hc.holds h.toFounded
  have hlt := h.order.levelAt_lt hv
  have hsign := hc.not_negated
  have hne : Edge.zero ≠ c := fun e => by rw [← e] at hsign; cases hsign
  unfold addLiteral
  rw [if_neg (Int.not_lt.mpr (Int.natCast_nonneg v)), Int.natAbs_natCast]
  unfold mkNode
  rw [hsign]
  refine ends_unless hv.1 ?_
  show Ends (shared v .zero c) m _
  unfold shared
  rw [if_neg hne]
  refine (ends_intern h (n := ⟨v, .zero, c⟩)
    ⟨hv, h.holds_zero, hheld, hlt, below, hsign, hne⟩).bind fun i m' ⟨n, hi, hi', hs⟩ => ?_
  have hstored : m'.stored (Edge.ofIndex i).index = ⟨v, .zero, c⟩ := by
    rw [Edge.index_ofIndex, hs]
  refine ends_pure ⟨n, holds_ofIndex.mpr ⟨by omega, hi'⟩, Edge.isTerminal_ofIndex (by omega),
    Edge.negated_ofIndex i, ?_, ?_, ?_⟩
  · rw [varOf, hstored]
  · rw [lowOf, hstored, Edge.negated_ofIndex]; rfl
  · rw [highOf, hstored, Edge.negated_ofIndex]; exact n.2.nodes.isVarSet hc

/-- **A set of variables has one decision for each of them**, from the top. -/
theorem ends_varCube {vs : List Nat} (hv : ∀ v ∈ vs, m.order.Allocated v) (hnodup : vs.Nodup) :
    Ends (varCube vs) m fun r m' => m.Next m' ∧ ∃ ws, ws.Perm vs ∧ m'.IsVarSet r ws := by
  have hc : m.Cubic (vs.map Int.ofNat) :=
    ⟨fun l hl => by
      obtain ⟨v, hmem, rfl⟩ := List.mem_map.mp hl
      exact hv v hmem, List.pairwise_map.mpr hnodup⟩
  unfold varCube cube
  obtain ⟨arranged, harranged, hperm, hdeep⟩ := deepestFirst_eq h.toFounded hc
  refine ends_unless hc.contains_zero (ends_bind (ask_eq harranged) ?_)
  have loop := Ends.foldlM (f := addLiteral) (i := fun rest c m' => m.Topping rest c m' ∧
      (∀ l ∈ rest, l ∈ vs.map Int.ofNat) ∧
      ∃ done : List Nat, m'.IsVarSet c done ∧ (rest ++ done.map Int.ofNat).Perm arranged)
    (fun l rest c m' ⟨t, hrest, done, hset, hdone⟩ => by
      obtain ⟨v, _, rfl⟩ := List.mem_map.mp (hrest l List.mem_cons_self)
      have hv := t.cubic.allocated _ List.mem_cons_self
      have below := t.below _ List.mem_cons_self
      refine (ends_addVariable t.next.1 hset hv below).mono fun r m'' ⟨n, hset'⟩ => ?_
      have hrank : m''.rank r = m'.order.levelAt v := by
        rw [rank_of_not_terminal hset'.2.1, hset'.2.2.2.1, n.2.order]
        rfl
      refine ⟨t.step n hset'.1 fun k hk => ?_, fun k hk => hrest k (List.mem_cons_of_mem _ hk),
        v :: done, hset', List.perm_middle.trans hdone⟩
      rw [hrank]
      exact (List.pairwise_cons.mp t.deepening).1 k hk)
    arranged .one m ⟨topping_start h (hc.perm hperm) hdeep, fun l hl => hperm.mem_iff.mp hl, [],
      rfl, by rw [List.map_nil, List.append_nil]⟩
  refine loop.mono fun r m' ⟨t, _, done, hset, hdone⟩ => ⟨t.next, done, ?_, hset⟩
  have hback := (hdone.trans hperm).map Int.natAbs
  rw [List.nil_append, List.map_map, List.map_map] at hback
  rwa [show Int.natAbs ∘ Int.ofNat = id from rfl, List.map_id, List.map_id] at hback

end Sets

/-! ## 4. Words -/

theorem bmod_of_small {w : Nat} (hw : w < twoPow 31) : Int.bmod w (twoPow 32) = w := by
  have hword : twoPow 32 = 2 * twoPow 31 := rfl
  rw [hword]
  exact Int.bmod_eq_of_le (by omega) (by omega)

/-- A word from `twoPow 31` on is read as the complement of the variable that is missing up to
`twoPow 32`. -/
theorem bmod_of_large {w : Nat} (hw : twoPow 31 ≤ w) (hlt : w < twoPow 32) :
    Int.bmod w (twoPow 32) = -((twoPow 32 - w : Nat) : Int) := by
  have hword : twoPow 32 = 2 * twoPow 31 := rfl
  rw [hword] at hlt ⊢
  rw [← Int.sub_bmod_right, Int.bmod_eq_of_le (by omega) (by omega)]
  omega

theorem literalsOfWords_eq {words : List Nat} (hw : ∀ w ∈ words, w < twoPow 31) :
    literalsOfWords words = words.map Int.ofNat :=
  List.map_congr_left fun w hmem => bmod_of_small (hw w hmem)

/-- **Words below `twoPow 31` stand for the set of their variables.** -/
theorem varSetOfWords_eq {words : List Nat} (hw : ∀ w ∈ words, w < twoPow 31) :
    varSetOfWords words = varCube words := by
  rw [varSetOfWords, varCube, literalsOfWords_eq hw]

end Factbase.Diagram.Manager
