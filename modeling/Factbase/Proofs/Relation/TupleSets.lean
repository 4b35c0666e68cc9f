import Factbase.Proofs.Relation.Cardinality
import Factbase.Proofs.Relation.Lifetimes

/-!
# Relations as sets of tuples

Calls on single tuples are run on a relation and, where they are answered, replayed on a finite set.

* `TupleCall`, `replay`: the calls, on the relation and on the set side by side;
* `Tracks.replay`: **the relation has exactly the tuples of the set, after every run**;
* `reached_tupleSet`: what every single call does in any open relation that is reached, and what a
  run of calls from the empty relation on comes to.
-/

namespace Factbase.Relation

open Diagram

/-! ## 1. Calls -/

/-- A call on a single tuple of indices. -/
inductive TupleCall where
  | add (t : List Nat)
  | remove (t : List Nat)
  | contains (t : List Nat)

namespace TupleCall

/-- The tuple that is added, removed or looked for. -/
def tuple : TupleCall → List Nat
  | .add t | .remove t | .contains t => t

/-- The call on a relation. -/
def run (cat : Catalog) : TupleCall → RelationM Unit
  | .add t => addIndices cat t
  | .remove t => removeIndices cat t
  | .contains t => do let _ ← containsIndices cat t

/-- The call on a set, where it is answered. -/
def effect : TupleCall → Finset (List Nat) → Finset (List Nat)
  | .add t, S => insert t S
  | .remove t, S => S.erase t
  | .contains _, S => S

/-- One call on a set and a relation. A call that is refused does not count for the set. -/
def step (before : Finset (List Nat) × Relation) (call : Catalog × TupleCall) :
    Finset (List Nat) × Relation :=
  match call.2.run call.1 before.2 with
  | .ok _ r => (call.2.effect before.1, r)
  | .error _ r => (before.1, r)

end TupleCall

/-- A run of calls, each with the domains as they are then. -/
def replay (calls : List (Catalog × TupleCall)) (before : Finset (List Nat) × Relation) :
    Finset (List Nat) × Relation :=
  calls.foldl TupleCall.step before

/-! ## 2. Single calls -/

section Single

variable {r : Relation} {schema : Schema} {c : Contents} (hopen : r.stage = .opened schema c)
  (hc : c.Sound schema) {cat : Catalog} {t : List Nat}

include hopen hc

theorem ends_addIndices (hv : Valid cat schema c.layout t) : Ends (addIndices cat t) r fun _ r' =>
    Retupled r schema c (insert t c.tuples) r' :=
  ends_bind (checked_eq hopen hv) (ends_addChecked hopen hc hv.fits)

theorem ends_removeIndices (hv : Valid cat schema c.layout t) :
    Ends (removeIndices cat t) r fun _ r' => Retupled r schema c (c.tuples \ {t}) r' :=
  ends_bind (checked_eq hopen hv) (ends_removeChecked hopen hc hv.fits)

theorem ends_containsIndices (hv : Valid cat schema c.layout t) :
    Ends (containsIndices cat t) r fun found r' =>
      (found = true ↔ t ∈ c.tuples) ∧ Retupled r schema c c.tuples r' :=
  ends_bind (checked_eq hopen hv) (ends_containsChecked hopen hc hv.fits)

/-- **A call with a valid tuple has the effect on the relation that it has on its set.** -/
theorem TupleCall.ends_run {call : TupleCall} (hv : Valid cat schema c.layout call.tuple)
    {S : Finset (List Nat)} (hS : c.tuples = ↑S) :
    Ends (call.run cat) r fun _ r' => Retupled r schema c ↑(call.effect S) r' := by
  cases call with
  | add t =>
      rw [effect, Finset.coe_insert, ← hS]
      exact ends_addIndices hopen hc hv
  | remove t =>
      rw [effect, Finset.coe_erase, ← hS]
      exact ends_removeIndices hopen hc hv
  | contains t =>
      rw [effect, ← hS]
      exact Ends.bind (ends_containsIndices hopen hc hv) fun _ _ hr' => ends_pure hr'.2

omit hc in
/-- A call with any other tuple is refused. -/
theorem TupleCall.run_eq_error {call : TupleCall} (hv : ¬ Valid cat schema c.layout call.tuple) :
    ∃ e, call.run cat r = .error e r := by
  obtain ⟨problem, _, hrefused⟩ := checked_error hopen hv
  cases call with
  | add t => exact ⟨_, bind_eq_error hrefused⟩
  | remove t => exact ⟨_, bind_eq_error hrefused⟩
  | contains t => exact ⟨_, bind_eq_error (bind_eq_error hrefused)⟩

end Single

/-! ## 3. Runs -/

/-- The relation is open and has exactly the tuples of the set. -/
def Tracks (S : Finset (List Nat)) (r : Relation) : Prop :=
  ∃ schema c, r.stage = .opened schema c ∧ c.Sound schema ∧ c.tuples = ↑S

/-- **A call does to the relation what it does to the set.** -/
theorem Tracks.step {S : Finset (List Nat)} {r : Relation} (h : Tracks S r)
    (call : Catalog × TupleCall) :
    Tracks (TupleCall.step (S, r) call).1 (TupleCall.step (S, r) call).2 := by
  obtain ⟨cat, call⟩ := call
  obtain ⟨schema, c, hopen, hc, hS⟩ := id h
  unfold TupleCall.step
  by_cases hv : Valid cat schema c.layout call.tuple
  · obtain ⟨_, _, run, c', rfl, hc', _, htuples⟩ := TupleCall.ends_run hopen hc hv hS
    rw [run]
    exact ⟨schema, c', rfl, hc', htuples⟩
  · obtain ⟨e, run⟩ := TupleCall.run_eq_error hopen hv
    rw [run]
    exact h

/-- **A run does to the relation what it does to the set.** -/
theorem Tracks.replay (calls : List (Catalog × TupleCall)) {S : Finset (List Nat)} {r : Relation}
    (h : Tracks S r) : Tracks (replay calls (S, r)).1 (replay calls (S, r)).2 := by
  unfold Relation.replay
  induction calls generalizing S r with
  | nil => exact h
  | cons call calls ih => exact ih (h.step call)

/-- The empty relation has no tuples. -/
theorem tracks_zero {r r' : Relation} (h : r.Sound) {cat : Catalog} {env : Environment}
    (run : zero cat env r = .ok () r') : Tracks ∅ r' := by
  obtain ⟨hr', schema, layout, m, rfl⟩ := (upholds_zero h cat env).of_ok run
  refine ⟨schema, ⟨m, .zero, layout⟩, rfl, hr'.2, ?_⟩
  rw [Finset.coe_empty]
  exact hr'.2.root_eq_zero_iff.mp rfl

/-! ## 4. Main result -/

/-- **Relations as sets of tuples.** In every open relation that is reached, a valid tuple is added,
removed and found as in a set, and any other tuple is refused and changes nothing. After every run
of such calls on an empty relation, its emptiness and its sizes are those of the set on which the
answered calls are replayed. -/
theorem reached_tupleSet {r : Relation} (h : Reached r) :
    (∀ schema c, r.stage = .opened schema c → c.layout.arity = schema.signature.arity ∧
      ∀ cat t,
      (Valid cat schema c.layout t →
        (∃ c', addIndices cat t r = .ok () (r.withContents schema c') ∧
          c'.layout = c.layout ∧ c'.tuples = insert t c.tuples) ∧
        (∃ c', removeIndices cat t r = .ok () (r.withContents schema c') ∧
          c'.layout = c.layout ∧ c'.tuples = c.tuples \ {t}) ∧
        ∃ found c', containsIndices cat t r = .ok found (r.withContents schema c') ∧
          (found = true ↔ t ∈ c.tuples) ∧ c'.layout = c.layout ∧ c'.tuples = c.tuples) ∧
      (¬ Valid cat schema c.layout t → ∃ problem, Misfit problem ∧
        addIndices cat t r = .error (.error ⟨schema.name, problem⟩) r ∧
        removeIndices cat t r = .error (.error ⟨schema.name, problem⟩) r ∧
        containsIndices cat t r = .error (.error ⟨schema.name, problem⟩) r)) ∧
    ∀ cat env r₀, zero cat env r = .ok () r₀ → ∀ calls,
      let (S, r') := replay calls (∅, r₀)
      (∃ schema c, r'.stage = .opened schema c ∧ c.tuples = ↑S) ∧
      isEmpty r' = .ok (decide (S = ∅)) r' ∧ sizeExact r' = .ok S.card r' ∧
      size r' = .ok (min S.card greatestWord) r' := by
  refine ⟨fun schema c hopen => ?_, fun cat env r₀ run calls => ?_⟩
  · have hc := h.contents hopen
    refine ⟨?_, fun cat t => ⟨fun hv => ⟨?_, ?_, ?_⟩, fun hv => ?_⟩⟩
    · have hs := h.sound
      unfold Sound at hs
      rw [hopen] at hs
      exact hc.arity_eq.trans hs.1
    · obtain ⟨_, _, run, c', rfl, _, hlayout, htuples⟩ := ends_addIndices hopen hc hv
      exact ⟨c', run, hlayout, htuples⟩
    · obtain ⟨_, _, run, c', rfl, _, hlayout, htuples⟩ := ends_removeIndices hopen hc hv
      exact ⟨c', run, hlayout, htuples⟩
    · obtain ⟨found, _, run, hfound, c', rfl, _, hlayout, htuples⟩ :=
        ends_containsIndices hopen hc hv
      exact ⟨found, c', run, hfound, hlayout, htuples⟩
    · obtain ⟨problem, hmisfit, hrefused⟩ := checked_error hopen hv
      exact ⟨problem, hmisfit, bind_eq_error hrefused, bind_eq_error hrefused,
        bind_eq_error hrefused⟩
  · obtain ⟨schema, c, hopen, hc, hS⟩ := (tracks_zero h.sound run).replay calls
    exact ⟨⟨schema, c, hopen, hS⟩, isEmpty_eq hopen hc hS, sizeExact_eq hopen hc hS,
      size_eq hopen hc hS⟩

/-- Over a domain of two values the second index is added and a third one is refused. -/
theorem reached_tupleSet_single : ∃ cat r r' schema c, Reached r ∧ Reached r' ∧
    zero cat [] r = .ok () r' ∧ r'.stage = .opened schema c ∧
    (∃ c', addIndices cat [1] r' = .ok () (r'.withContents schema c') ∧
      c'.layout = c.layout ∧ c'.tuples = insert [1] c.tuples) ∧
    (∃ problem, Misfit problem ∧
      addIndices cat [2] r' = .error (.error ⟨schema.name, problem⟩) r') ∧
    let (S, r'') := replay [(cat, .add [1]), (cat, .add [2]), (cat, .contains [0])] (∅, r')
    sizeExact r'' = .ok S.card r'' := by
  obtain ⟨cat, r, r', schema, c, hr, run, hr', hopen, hvalid, hnot⟩ := reached_single
  have hcalls := ((reached_tupleSet hr').1 schema c hopen).2 cat
  obtain ⟨problem, hmisfit, hrefused, _⟩ := (hcalls [2]).2 hnot
  have hrun := (reached_tupleSet hr).2 cat [] r' run
    [(cat, .add [1]), (cat, .add [2]), (cat, .contains [0])]
  exact ⟨cat, r, r', schema, c, hr, hr', run, hopen, ((hcalls [1]).1 hvalid).1,
    ⟨problem, hmisfit, hrefused⟩, hrun.2.2.1⟩

end Factbase.Relation
