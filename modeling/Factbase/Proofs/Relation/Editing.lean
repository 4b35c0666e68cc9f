import Factbase.Proofs.Relation.Invariant

/-!
# Editing an open relation

What adding, removing and testing a tuple does to the tuples of an open relation whose contents are
sound.

* `Retupled`: the relation has other tuples and is otherwise the same;
* `ends_addChecked`, `ends_removeChecked`, `ends_containsChecked`: **a tuple that fits is added,
  removed and tested, and nothing else changes**;
* `checked_eq`, `checked_error`: the check in front of them.
-/

namespace Factbase.Relation

open Diagram

/-- The relation has the given tuples, and is the same in everything but its manager and diagram. -/
def Retupled (r : Relation) (schema : Schema) (c : Contents) (S : Set (List Nat))
    (r' : Relation) : Prop :=
  ∃ c' : Contents, r' = r.withContents schema c' ∧ c'.Sound schema ∧ c'.layout = c.layout ∧
    c'.tuples = S

/-- The tuples are the same however the manager grows. -/
theorem Contents.Sound.tuples_next {schema : Schema} {c : Contents} (hc : c.Sound schema)
    {m : Manager} (n : c.manager.Next m) : Contents.tuples { c with manager := m } = c.tuples := by
  simp only [Contents.tuples, n.eval_eq hc.manager hc.root]

section Opened

variable {α : Type} {r : Relation} {schema : Schema} {c : Contents}
  (hopen : r.stage = .opened schema c)

include hopen

theorem opening_eq : opening r = .ok (schema, c.root, c.layout) r := by
  obtain ⟨config, stage⟩ := r
  obtain rfl : stage = .opened schema c := hopen
  rfl

omit hopen in
theorem orProblem_eq_ok {x : Except RelationProblem α} {a : α} (h : x = .ok a) :
    orProblem x r = .ok a r := by
  rw [h]
  rfl

omit hopen in
theorem orProblem_eq_error {x : Except RelationProblem α} {found : RelationProblem}
    (h : x = .error found) : orProblem x r = .error (.error ⟨r.name, found⟩) r := by
  rw [h]
  rfl

/-- A program over the manager runs on the manager of the relation. -/
theorem ends_onManager {act : Edge → Layout → Op α} {post : α → Manager → Prop}
    (hact : Ends (act c.root c.layout) c.manager post) :
    Ends (onManager act) r fun a r' =>
      ∃ m, r' = r.withContents schema { c with manager := m } ∧ post a m := by
  obtain ⟨config, stage⟩ := r
  obtain rfl : stage = .opened schema c := hopen
  obtain ⟨manager, root, layout⟩ := c
  obtain ⟨a, m, run, hpost⟩ := hact
  exact ⟨a, _, onManager_eq_ok run, m, rfl, hpost⟩

/-- A question that is answered leaves the relation alone. -/
theorem onManager_ask_eq {question : Edge → Layout → Manager → Except Fault α} {a : α}
    (h : question c.root c.layout c.manager = .ok a) :
    onManager (fun root layout => Manager.ask (question root layout)) r = .ok a r := by
  obtain ⟨config, stage⟩ := r
  obtain rfl : stage = .opened schema c := hopen
  exact onManager_eq_ok (Manager.ask_eq h)

variable (hc : c.Sound schema)

include hc

/-- **A diagram that is made becomes the diagram of the relation.** -/
theorem ends_update {act : Edge → Layout → Op Edge} {value : Assignment → Bool}
    (hact : Manager.Makes (act c.root c.layout) c.manager value) :
    Ends (update act) r fun _ r' =>
      Retupled r schema c {t | ∃ ρ, c.layout.read ρ = t ∧ value ρ = true} r' := by
  refine (ends_onManager hopen hact).bind fun e r' ⟨m, hr', n, he, hval⟩ => ?_
  subst hr'
  refine ⟨(), _, rfl, ⟨m, e, c.layout⟩, rfl, hc.next n he, rfl, ?_⟩
  simp only [Contents.tuples, hval]

/-! ## 1. Single tuples -/

variable {t : List Nat} (ht : c.layout.Fits t)

include ht

theorem ends_addChecked : Ends (addChecked t) r fun _ r' =>
    Retupled r schema c (insert t c.tuples) r' := by
  have hmake : Manager.Makes (do Manager.disj c.root (← c.layout.tupleCube t)) c.manager
      fun ρ => c.manager.eval ρ c.root || decide (c.layout.read ρ = t) :=
    (hc.layout.makes_tupleCube hc.manager ht).bind fun cube m n hcube hval =>
      (Manager.makes_disj n.1 (n.holds hc.root) hcube).congr fun ρ => by
        rw [hval, n.eval_eq hc.manager hc.root]
  refine (ends_update hopen hc hmake).mono fun _ r' hr' => ?_
  convert hr' using 1
  obtain ⟨ρ₀, hread⟩ := hc.layout.exists_read ht
  ext t'
  simp only [Set.mem_insert_iff, Contents.tuples, Set.mem_ofPred_eq, Bool.or_eq_true,
    decide_eq_true_iff]
  constructor
  · rintro (rfl | ⟨ρ, hρ, htrue⟩)
    · exact ⟨ρ₀, hread, Or.inr hread⟩
    · exact ⟨ρ, hρ, Or.inl htrue⟩
  · rintro ⟨ρ, hρ, htrue | hsame⟩
    · exact Or.inr ⟨ρ, hρ, htrue⟩
    · exact Or.inl (hρ.symm.trans hsame)

theorem ends_removeChecked : Ends (removeChecked t) r fun _ r' =>
    Retupled r schema c (c.tuples \ {t}) r' := by
  have hmake : Manager.Makes (do Manager.diff c.root (← c.layout.tupleCube t)) c.manager
      fun ρ => c.manager.eval ρ c.root && !decide (c.layout.read ρ = t) :=
    (hc.layout.makes_tupleCube hc.manager ht).bind fun cube m n hcube hval =>
      (Manager.makes_diff n.1 (n.holds hc.root) hcube).congr fun ρ => by
        rw [hval, n.eval_eq hc.manager hc.root]
  refine (ends_update hopen hc hmake).mono fun _ r' hr' => ?_
  convert hr' using 1
  ext t'
  simp only [Set.mem_sdiff, Set.mem_singleton_iff, Contents.tuples, Set.mem_ofPred_eq,
    Bool.and_eq_true, Bool.not_eq_true', decide_eq_false_iff_not]
  constructor
  · rintro ⟨⟨ρ, rfl, htrue⟩, hne⟩
    exact ⟨ρ, rfl, htrue, hne⟩
  · rintro ⟨ρ, rfl, htrue, hne⟩
    exact ⟨⟨ρ, rfl, htrue⟩, hne⟩

theorem ends_containsChecked : Ends (containsChecked t) r fun found r' =>
    (found = true ↔ t ∈ c.tuples) ∧ Retupled r schema c c.tuples r' := by
  have hfound := Manager.ends_meets hc.manager hc.root (hc.layout.makes_tupleCube hc.manager ht)
  unfold containsChecked
  refine Ends.mono (ends_onManager hopen hfound) fun found r' ⟨m, hr', n, heq⟩ => ⟨?_, ?_⟩
  · simp only [heq, decide_eq_true_iff, Contents.tuples, Set.mem_ofPred_eq]
    exact exists_congr fun ρ => and_comm
  exact ⟨_, hr', hc.next n (n.holds hc.root), rfl, hc.tuples_next n⟩

end Opened

/-! ## 2. Checked tuples -/

section Checked

variable {r : Relation} {schema : Schema} {c : Contents}
  (hopen : r.stage = .opened schema c) {cat : Catalog} {t : List Nat}

include hopen

/-- A valid tuple passes, and the relation is as it was. -/
theorem checked_eq (hv : Valid cat schema c.layout t) : checked cat t r = .ok t r := by
  obtain ⟨config, stage⟩ := r
  obtain rfl : stage = .opened schema c := hopen
  show orProblem (checkTuple cat schema c.layout t) _ = _
  rw [checkTuple_eq hv]
  rfl

/-- Any other tuple is refused, and the relation is as it was. -/
theorem checked_error (hv : ¬ Valid cat schema c.layout t) : ∃ problem, Misfit problem ∧
    checked cat t r = .error (.error ⟨schema.name, problem⟩) r := by
  obtain ⟨problem, hcheck, hmisfit⟩ := checkTuple_error hv
  refine ⟨problem, hmisfit, ?_⟩
  obtain ⟨config, stage⟩ := r
  obtain rfl : stage = .opened schema c := hopen
  show orProblem (checkTuple cat schema c.layout t) _ = _
  rw [hcheck]
  rfl

end Checked

end Factbase.Relation
