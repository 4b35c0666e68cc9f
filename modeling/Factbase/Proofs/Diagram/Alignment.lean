import Factbase.Proofs.Diagram.Codec
import Mathlib.Order.Interval.Finset.Nat

/-!
# Diagrams of aligned managers

Two managers with the same variables at the same levels may have come to their nodes in any order
and number them as they like. What one of them says of an edge through variables and children, the
other one says of any edge with the same values: the two diagrams have the same shape.

* `Manager.Aligned`: the same variables at the same levels;
* `Manager.Coincide`: an edge of each manager, with the same value under every assignment;
* `Coincide.negated_eq`: **edges that coincide have the same sign**, `Coincide.stored`: **and
  their nodes test the same variable and have children that coincide**;
* `Body.render_injective`: different bodies have different texts;
* `paired_numberWithin`: numbering two diagrams that coincide visits them in step;
* `body_render_eq_iff`: **two diagrams are written as the same text where they have the same
  values, and only there.**
-/

namespace Factbase.Diagram

open Text

namespace Manager

/-! ## 1. Aligned managers -/

/-- The managers have the same number of variables, and the same variable at every level. -/
structure Aligned (A B : Manager) : Prop where
  numVars : A.numVars = B.numVars
  varAt : ∀ level, A.order.varAt level = B.order.varAt level

/-- The edges, one of each manager, have the same value under every assignment. -/
def Coincide (A B : Manager) (e f : Edge) : Prop := ∀ ρ : Assignment, A.eval ρ e = B.eval ρ f

variable {A B : Manager} {e f : Edge}

theorem Aligned.symm (hAB : A.Aligned B) : B.Aligned A :=
  ⟨hAB.numVars.symm, fun level => (hAB.varAt level).symm⟩

theorem Coincide.symm (h : A.Coincide B e f) : B.Coincide A f e := fun ρ => (h ρ).symm

theorem Aligned.allocated_iff (hAB : A.Aligned B) {v : Nat} :
    A.order.Allocated v ↔ B.order.Allocated v := by
  have hsize : A.order.size = B.order.size := hAB.numVars
  rw [Order.Allocated, Order.Allocated, hsize]

/-- A variable stands at the same level in both managers. -/
theorem Aligned.levelAt_eq (hAB : A.Aligned B) (hA : A.order.Sound) (hB : B.order.Sound) {v : Nat}
    (hv : A.order.Allocated v) : A.order.levelAt v = B.order.levelAt v := by
  have hlt : A.order.levelAt v < B.order.size := Nat.lt_of_lt_of_eq (hA.levelAt_lt hv) hAB.numVars
  obtain ⟨w, _, hlevel, hw⟩ := hB.exists_levelAt hlt
  have hvar : A.order.varAt (A.order.levelAt v) = .ok v := by
    rw [Order.varAt, hA.var?_levelAt hv]
  obtain rfl : v = w := Except.ok.inj (hvar.symm.trans ((hAB.varAt _).trans hw))
  exact hlevel.symm

/-! ## 2. Edges that coincide -/

/-- Where all variables are true, the sign decides: high children are never complemented. -/
theorem WellFormed.eval_true (hA : A.WellFormed) (he : A.Holds e) :
    A.eval (fun _ => true) e = !e.negated := by
  refine hA.induction (motive := fun e => A.eval (fun _ => true) e = !e.negated)
    (fun e _ ht => eval_leaf ht) (fun e he ht _ ihh => ?_) he
  rw [hA.eval_node he ht, if_pos rfl, ihh, hA.negated_highOf he ht]

section Coincide

variable (hA : A.WellFormed) (hB : B.WellFormed) (hAB : A.Aligned B) (he : A.Holds e)
  (hf : B.Holds f) (same : A.Coincide B e f)

include hA hB he hf same

/-- **Edges that coincide have the same sign.** -/
theorem Coincide.negated_eq : e.negated = f.negated := by
  have hsign := same fun _ => true
  rw [hA.eval_true he, hB.eval_true hf] at hsign
  exact Bool.not_inj hsign

/-- The uncomplemented edges to their nodes coincide, too. -/
theorem Coincide.ofIndex : A.Coincide B (.ofIndex e.index) (.ofIndex f.index) := fun ρ => by
  have hvalue := same ρ
  rw [← hA.negated_xor_eval he, ← hB.negated_xor_eval hf,
    same.negated_eq hA hB he hf] at hvalue
  exact Bool.xor_right_inj.mp hvalue

include hAB

/-- The second edge does not test a variable above the first one. -/
theorem Coincide.rank_le : A.rank e ≤ B.rank f := by
  refine Nat.not_lt.mp fun hlt => ?_
  have ht : f.isTerminal = false := by
    cases ht : f.isTerminal with
    | false => rfl
    | true =>
        rw [rank_of_terminal ht, ← hAB.numVars] at hlt
        exact absurd (hA.rank_le he) (Nat.not_le.mpr hlt)
  have hv := hB.allocated hf ht
  rw [rank_of_not_terminal ht, ← hAB.levelAt_eq hA.order hB.order (hAB.allocated_iff.mpr hv)] at hlt
  -- the first edge does not depend on the variable, and so neither does the second one
  refine hB.lowOf_ne_highOf hf ht
    (hB.eq_of_eval_eq (hB.holds_lowOf hf ht) (hB.holds_highOf hf ht) fun ρ => ?_)
  rw [hB.eval_lowOf hf ht, hB.eval_highOf hf ht, ← same, ← same, hA.eval_update he hlt,
    hA.eval_update he hlt]

theorem Coincide.rank_eq : A.rank e = B.rank f :=
  Nat.le_antisymm (same.rank_le hA hB hAB he hf) (same.symm.rank_le hB hA hAB.symm hf he)

/-- A leaf coincides with a leaf only. -/
theorem Coincide.isTerminal_eq : e.isTerminal = f.isTerminal := by
  have hrank := same.rank_eq hA hB hAB he hf
  rw [Bool.eq_iff_iff]
  constructor <;> intro ht
  · refine (Bool.eq_false_or_eq_true _).resolve_right fun hnot => ?_
    have := hB.rank_lt hf hnot
    rw [← hrank, rank_of_terminal ht, hAB.numVars] at this
    exact Nat.lt_irrefl _ this
  · refine (Bool.eq_false_or_eq_true _).resolve_right fun hnot => ?_
    have := hA.rank_lt he hnot
    rw [hrank, rank_of_terminal ht, hAB.numVars] at this
    exact Nat.lt_irrefl _ this

section Node

variable (ht : e.isTerminal = false)

include ht

theorem Coincide.varOf_eq : A.varOf e = B.varOf f := by
  have htf := (same.isTerminal_eq hA hB hAB he hf).symm.trans ht
  have hv := hA.allocated he ht
  have hrank := same.rank_eq hA hB hAB he hf
  rw [rank_of_not_terminal ht, hAB.levelAt_eq hA.order hB.order hv] at hrank
  exact (hB.varOf_eq hf htf (hAB.allocated_iff.mp hv) hrank).symm

/-- Children of edges that coincide do so on the same side. -/
theorem Coincide.children : A.Coincide B (A.lowOf e) (B.lowOf f) ∧
    A.Coincide B (A.highOf e) (B.highOf f) := by
  have htf := (same.isTerminal_eq hA hB hAB he hf).symm.trans ht
  have hvar := same.varOf_eq hA hB hAB he hf ht
  refine ⟨fun ρ => ?_, fun ρ => ?_⟩
  · rw [hA.eval_lowOf he ht, hB.eval_lowOf hf htf, hvar, same]
  · rw [hA.eval_highOf he ht, hB.eval_highOf hf htf, hvar, same]

/-- **The nodes of edges that coincide test the same variable and have children that coincide.** -/
theorem Coincide.stored : (A.stored e.index).var = (B.stored f.index).var ∧
    A.Coincide B (A.stored e.index).low (B.stored f.index).low ∧
    A.Coincide B (A.stored e.index).high (B.stored f.index).high := by
  obtain ⟨hlow, hhigh⟩ := (same.ofIndex hA hB he hf).children hA hB hAB
    (holds_ofIndex.mpr he) (holds_ofIndex.mpr hf)
    (by rwa [Edge.isTerminal, Edge.index_ofIndex])
  refine ⟨same.varOf_eq hA hB hAB he hf ht, ?_, ?_⟩
  · rwa [lowOf, lowOf, Edge.index_ofIndex, Edge.index_ofIndex, Edge.negated_ofIndex,
      Edge.negated_ofIndex] at hlow
  · rwa [highOf, highOf, Edge.index_ofIndex, Edge.index_ofIndex, Edge.negated_ofIndex,
      Edge.negated_ofIndex] at hhigh

end Node

end Coincide

/-- An edge depends on the variables of its manager only. -/
theorem Founded.dependsOn (hA : A.Founded) (he : A.Holds e) :
    A.DependsOn (Finset.Icc 1 A.numVars) e := fun _ _ agree =>
  hA.eval_congr he fun v hv _ =>
    agree v (Finset.mem_Icc.mpr ⟨Nat.one_le_iff_ne_zero.mpr hv.1, hv.2⟩)

end Manager

/-! ## 3. Texts of bodies -/

theorem BodyLine.fields_injective : Function.Injective BodyLine.fields := by
  intro line line' h
  simp only [fields, List.cons.injEq, and_true] at h
  obtain ⟨hid, hvar, hlow, hhigh⟩ := h
  obtain ⟨id, var, low, high⟩ := line
  obtain ⟨id', var', low', high'⟩ := line'
  obtain rfl : id = id' := Int.ofNat_inj.mp (toList_toString_inj hid)
  obtain rfl : var = var' := Int.ofNat_inj.mp (toList_toString_inj hvar)
  obtain rfl : low = low' := toList_toString_inj hlow
  obtain rfl : high = high' := toList_toString_inj hhigh
  rfl

namespace Body

theorem fields_injective : Function.Injective Body.fields := by
  intro b b' h
  obtain ⟨hcounts, hrest⟩ := List.cons.inj h
  obtain ⟨hlines, hroot⟩ := List.append_inj' hrest rfl
  simp only [List.cons.injEq, and_true] at hcounts hroot
  obtain ⟨numVars, lines, root⟩ := b
  obtain ⟨numVars', lines', root'⟩ := b'
  obtain rfl : numVars = numVars' := Int.ofNat_inj.mp (toList_toString_inj hcounts.2)
  obtain rfl : lines = lines' := List.map_injective_iff.mpr BodyLine.fields_injective hlines
  obtain rfl : root = root' := toList_toString_inj hroot
  rfl

/-- **Different bodies have different texts.** -/
theorem render_injective : Function.Injective Body.render := by
  have hfields : ∀ b : Body, (splitLines b.render.toList).map words = b.fields :=
    fun b => by
      rw [b.splitLines_render, List.map_map]
      exact (List.map_congr_left fun line hline =>
        words_spaced (b.word_fields line hline)).trans (List.map_id _)
  intro b b' h
  exact fields_injective (by rw [← hfields, ← hfields, h])

/-! ## 4. Numbering in step -/

/-- The nodes that have a number correspond one by one: the edges to them coincide. -/
def Ids.Paired (A B : Manager) (ids ids' : Ids) : Prop :=
  List.Forall₂ (fun i j => A.Coincide B (.ofIndex i) (.ofIndex j)) ids.nodes ids'.nodes

theorem Ids.Paired.symm {A B : Manager} {ids ids' : Ids} (h : ids.Paired A B ids') :
    ids'.Paired B A ids :=
  (List.Forall₂.flip h).imp fun _ _ same => Manager.Coincide.symm same

section Paired

variable {A B : Manager} (hA : A.WellFormed) (hB : B.WellFormed) (hAB : A.Aligned B)
  {V V' : Finset Nat} {ids ids' : Ids} (hids : ids.Sound A V) (hids' : ids'.Sound B V')
  (paired : ids.Paired A B ids') {e f : Edge} (he : A.Holds e) (hf : B.Holds f)
  (same : A.Coincide B e f)

include hA hB hids' paired he hf same

/-- A node stands where its counterpart stands. -/
theorem Ids.Paired.getElem? {k : Nat} (hk : ids.nodes[k]? = some e.index) :
    ids'.nodes[k]? = some f.index := by
  obtain ⟨j, hj, hsame⟩ := exists_of_forall₂ paired hk
  have heq : Edge.ofIndex j = .ofIndex f.index :=
    hB.eq_of_eval_eq (hids'.held j (List.mem_of_getElem? hj)).2.1
      (Manager.holds_ofIndex.mpr hf)
      fun ρ => (hsame ρ).symm.trans (same.ofIndex hA hB he hf ρ)
  rw [hj, ← Edge.index_ofIndex j, heq, Edge.index_ofIndex]

include hids

theorem Ids.Paired.mem_iff : e.index ∈ ids.nodes ↔ f.index ∈ ids'.nodes := by
  simp only [List.mem_iff_getElem?]
  exact exists_congr fun k =>
    ⟨fun hk => paired.getElem? hA hB hids' he hf same hk,
      fun hk => paired.symm.getElem? hB hA hids hf he same.symm hk⟩

include hAB

/-- **Edges that coincide are written alike.** -/
theorem Ids.Paired.encode_eq {bound bound' : Nat} (hamong : Among ids.nodes bound e)
    (hamong' : Among ids'.nodes bound' f) : ids.encode e = ids'.encode f := by
  have hid : ids.idAt e = ids'.idAt f := by
    have hleaf := same.isTerminal_eq hA hB hAB he hf
    rcases hids.idAt_eq hamong with ⟨ht, hid⟩ | ⟨ht, k, _, hk, hid⟩
    · rcases hids'.idAt_eq hamong' with ⟨_, hid'⟩ | ⟨ht', _⟩
      · rw [hid, hid']
      · rw [ht, ht'] at hleaf
        cases hleaf
    · rcases hids'.idAt_eq hamong' with ⟨ht', _⟩ | ⟨_, k', _, hk', hid'⟩
      · rw [ht, ht'] at hleaf
        cases hleaf
      · have hat := paired.getElem? hA hB hids' he hf same hk
        have hnumber := (hids'.idOf _ _).mpr ⟨k, hat, rfl⟩
        rw [(hids'.idOf _ _).mpr ⟨k', hk', rfl⟩] at hnumber
        rw [hid, hid', Option.some.inj hnumber]
  rw [Ids.encode_eq, Ids.encode_eq, hid, same.negated_eq hA hB he hf]

end Paired

/-- What a numbering that is known to end comes to. -/
theorem numbered_of_run {m : Manager} (h : m.WellFormed) {depth : Nat} {e : Edge} {ids out : Ids}
    (he : m.Holds e) (hlt : e.index < depth) (hids : ids.Sound m (Finset.Icc 1 m.numVars))
    (run : m.numberWithin depth e ids = .ok out) :
    ids.Numbered out m (Finset.Icc 1 m.numVars) e := by
  obtain ⟨ids', run', hnumbered⟩ := exists_numberWithin h depth he (h.dependsOn he) hlt hids
  rw [run] at run'
  rwa [Except.ok.inj run']

section Bodies

variable {A B : Manager} (hA : A.WellFormed) (hB : B.WellFormed) (hAB : A.Aligned B)

include hA hB hAB

/-- **Numbering two diagrams that coincide visits them in step**, whatever numbers the nodes have
in their tables. -/
theorem paired_numberWithin : ∀ (depth depth' : Nat) {e f : Edge} {ids ids' out out' : Ids},
    A.Holds e → B.Holds f → A.Coincide B e f → e.index < depth → f.index < depth' →
    ids.Sound A (Finset.Icc 1 A.numVars) → ids'.Sound B (Finset.Icc 1 B.numVars) →
    ids.Paired A B ids' → A.numberWithin depth e ids = .ok out →
    B.numberWithin depth' f ids' = .ok out' → out.Paired A B out' := by
  intro depth
  induction depth with
  | zero => exact fun _ _ _ _ _ _ _ _ _ _ hlt => absurd hlt (Nat.not_lt_zero _)
  | succ depth ih =>
      intro depth' e f ids ids' out out' he hf same hlt hlt' hids hids' paired run run'
      obtain ⟨depth', rfl⟩ : ∃ k, depth' = k + 1 := ⟨depth' - 1, by omega⟩
      rw [Manager.numberWithin] at run run'
      have hdone : (e.isTerminal || ids.idOf.contains e.index) =
          (f.isTerminal || ids'.idOf.contains f.index) := by
        rw [same.isTerminal_eq hA hB hAB he hf, Bool.eq_iff_iff, Bool.or_eq_true, Bool.or_eq_true,
          hids.contains_iff, hids'.contains_iff, paired.mem_iff hA hB hids hids' he hf same]
      rw [← hdone] at run'
      cases hd : e.isTerminal || ids.idOf.contains e.index with
      | true =>
          rw [hd, if_pos rfl] at run run'
          obtain rfl := Except.ok.inj run
          obtain rfl := Except.ok.inj run'
          exact paired
      | false =>
          rw [hd, if_neg Bool.false_ne_true] at run run'
          obtain ⟨ht, _⟩ := Bool.or_eq_false_iff.mp hd
          have htf := (same.isTerminal_eq hA hB hAB he hf).symm.trans ht
          have hp := hA.placedAt he ht
          have hp' := hB.placedAt hf htf
          obtain ⟨node, hnode, run⟩ := ok_of_bind run
          obtain ⟨node', hnode', run'⟩ := ok_of_bind run'
          obtain ⟨_, rfl⟩ := Manager.stored_of_node hnode
          obtain ⟨_, rfl⟩ := Manager.stored_of_node hnode'
          obtain ⟨ids₁, hlow, run⟩ := ok_of_bind run
          obtain ⟨ids₂, hhigh, run⟩ := ok_of_bind run
          obtain ⟨ids₁', hlow', run'⟩ := ok_of_bind run'
          obtain ⟨ids₂', hhigh', run'⟩ := ok_of_bind run'
          obtain ⟨_, hsameLow, hsameHigh⟩ := same.stored hA hB hAB he hf ht
          have hltLow := hp.lowBefore
          have hltHigh := hp.highBefore
          have hltLow' := hp'.lowBefore
          have hltHigh' := hp'.highBefore
          -- first the low children, then the high ones, then the nodes themselves
          have paired₁ := ih depth' hp.lowHeld hp'.lowHeld hsameLow (by omega) (by omega) hids hids'
            paired hlow hlow'
          have hids₁ := (numbered_of_run hA hp.lowHeld (by omega) hids hlow).sound
          have hids₁' := (numbered_of_run hB hp'.lowHeld (by omega) hids' hlow').sound
          have paired₂ := ih depth' hp.highHeld hp'.highHeld hsameHigh (by omega) (by omega) hids₁
            hids₁' paired₁ hhigh hhigh'
          obtain rfl := Except.ok.inj run
          obtain rfl := Except.ok.inj run'
          unfold Ids.Paired Ids.nodes at paired₂ ⊢
          rw [List.reverse_cons, List.reverse_cons]
          exact List.rel_append paired₂ (.cons (same.ofIndex hA hB he hf) .nil)

/-- The lines of nodes that correspond are the same. -/
theorem Ids.Paired.lineOf_eq {V V' : Finset Nat} {ids ids' : Ids} (hids : ids.Sound A V)
    (hids' : ids'.Sound B V') (paired : ids.Paired A B ids') {k i j : Nat}
    (hi : ids.nodes[k]? = some i) (hj : ids'.nodes[k]? = some j)
    (same : A.Coincide B (.ofIndex i) (.ofIndex j)) : ids.lineOf A i = ids'.lineOf B j := by
  obtain ⟨h2, hheld, _⟩ := hids.held i (List.mem_of_getElem? hi)
  obtain ⟨h2', hheld', _⟩ := hids'.held j (List.mem_of_getElem? hj)
  have ht : (Edge.ofIndex i).isTerminal = false := Edge.isTerminal_ofIndex (by omega)
  have ht' : (Edge.ofIndex j).isTerminal = false := Edge.isTerminal_ofIndex (by omega)
  obtain ⟨hvar, hlow, hhigh⟩ := same.stored hA hB hAB hheld hheld' ht
  have hp := hA.placedAt hheld ht
  have hp' := hB.placedAt hheld' ht'
  simp only [Edge.index_ofIndex] at hvar hlow hhigh hp hp'
  obtain ⟨hamongLow, hamongHigh⟩ := hids.children k i hi
  obtain ⟨hamongLow', hamongHigh'⟩ := hids'.children k j hj
  have hid : (ids.lineOf A i).id = (ids'.lineOf B j).id := by
    rw [hids.id_lineOf hi, hids'.id_lineOf hj]
  have hencLow := paired.encode_eq hA hB hAB hids hids' hp.lowHeld hp'.lowHeld hlow hamongLow
    hamongLow'
  have hencHigh := paired.encode_eq hA hB hAB hids hids' hp.highHeld hp'.highHeld hhigh hamongHigh
    hamongHigh'
  rw [lineOf, lineOf, hvar, hencLow, hencHigh]
  exact congrArg (BodyLine.mk · _ _ _) hid

/-- **Diagrams that coincide have the same body.** -/
theorem body_eq_of_coincide {e f : Edge} (he : A.Holds e) (hf : B.Holds f)
    (same : A.Coincide B e f) : A.body e = B.body f := by
  obtain ⟨ids, run, hids, _, hamong⟩ := exists_numberWithin hA (A.numNodes + 1) he
    (hA.dependsOn he) (Nat.lt_succ_of_le he.2) sound_empty
  obtain ⟨ids', run', hids', _, hamong'⟩ := exists_numberWithin hB (B.numNodes + 1) hf
    (hB.dependsOn hf) (Nat.lt_succ_of_le hf.2) sound_empty
  have paired := paired_numberWithin hA hB hAB _ _ he hf same (Nat.lt_succ_of_le he.2)
    (Nat.lt_succ_of_le hf.2) sound_empty sound_empty .nil run run'
  have hlines : ids.nodes.map (ids.lineOf A) = ids'.nodes.map (ids'.lineOf B) := by
    refine List.ext_getElem? fun k => ?_
    rw [List.getElem?_map, List.getElem?_map]
    cases hi : ids.nodes[k]? with
    | none =>
        have hlen := List.Forall₂.length_eq paired
        have hj : ids'.nodes[k]? = none :=
          List.getElem?_eq_none (hlen ▸ List.getElem?_eq_none_iff.mp hi)
        rw [hj, Option.map_none, Option.map_none]
    | some i =>
        obtain ⟨j, hj, hsame⟩ := exists_of_forall₂ paired hi
        rw [hj, Option.map_some, Option.map_some,
          paired.lineOf_eq hA hB hAB hids hids' hi hj hsame]
  rw [hids.body_eq run, hids'.body_eq run', Ids.bodyOf, Ids.bodyOf, hAB.numVars, hlines,
    paired.encode_eq hA hB hAB hids hids' he hf same hamong hamong']

/-- **Canonical texts.** Two diagrams of aligned managers are written, and as the same text where
they have the same value under every assignment, and only there. -/
theorem body_render_eq_iff {f g : Edge} (hf : A.Holds f) (hg : B.Holds g) :
    ∃ b b', A.body f = .ok b ∧ B.body g = .ok b' ∧
      (b.render = b'.render ↔ ∀ ρ, A.eval ρ f = B.eval ρ g) := by
  obtain ⟨ids, hbody, hids, hamong⟩ := exists_body hA hf (hA.dependsOn hf)
  obtain ⟨ids', hbody', hids', hamong'⟩ := exists_body hB hg (hB.dependsOn hg)
  refine ⟨_, _, hbody, hbody', fun htext ρ => ?_, fun same => ?_⟩
  · rw [← hids.value_bodyOf hA hf hamong, ← hids'.value_bodyOf hB hg hamong',
      render_injective htext]
  · have heq := body_eq_of_coincide hA hB hAB hf hg same
    rw [hbody, hbody'] at heq
    rw [Except.ok.inj heq]

end Bodies

end Body

end Factbase.Diagram
