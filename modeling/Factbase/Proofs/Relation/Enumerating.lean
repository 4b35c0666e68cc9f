import Factbase.Proofs.Relation.Filling

/-!
# Enumerating tuples

* `nthTuple`: the answer to a call on a cursor, counted from its creation on;
* `Contents.listed`: the tuples that a relation's cursor lists, in order;
* `nthTuple_eq`: the calls on a cursor answer with what it lists;
* `reached_tuples`: **the cursor of an open relation that is reached answers with every tuple once,
  with nothing else, and then with none for ever.**
-/

namespace Factbase.Relation

open Diagram

/-- The answer to the call with a number, counted from 0. -/
def nthTuple : Nat → Cursor → RelationM (Option Tuple)
  | 0, c => do return (← nextTuple c).1
  | n + 1, c => do nthTuple n (← nextTuple c).2

/-- The tuples that the cursor lists, in order. -/
def Contents.listed (c : Contents) : List (List Nat) :=
  Relation.listed c.manager c.layout.slots c.root

/-! ## 1. The cursor -/

section Contents

variable {schema : Schema} {c : Contents} (hc : c.Sound schema)

include hc

theorem Contents.Sound.mem_listed {t : List Nat} : t ∈ c.listed ↔ t ∈ c.tuples :=
  hc.spells.mem_listed

theorem Contents.Sound.nodup_listed : c.listed.Nodup := hc.spells.nodup_listed

/-- The levels of slots' variables. -/
theorem Contents.Sound.levels_eq {slots : List Nat}
    (hslots : ∀ slot ∈ slots, slot < c.layout.arity) : slots.mapM (c.layout.levels c.manager) =
      .ok (slotLevels c.manager (slots.map c.layout.vars)) := by
  rw [mapM_eq_ok (g := fun slot => (c.layout.vars slot).map c.manager.order.levelAt), slotLevels,
    List.map_map]
  · rfl
  · refine fun slot hslot => mapM_eq_ok fun v hv => hc.manager.order.levelOf_eq ?_
    refine hc.layout.mem_flatten.mp ?_
    rw [← map_vars, ← List.flatMap_def]
    exact List.mem_flatMap.mpr ⟨slot, List.mem_range.mpr (hslots slot hslot), hv⟩

end Contents

section Cursor

variable {r : Relation} {schema : Schema} {c : Contents} (hopen : r.stage = .opened schema c)

include hopen

theorem tuples_eq (hc : c.Sound schema) :
    tuples r = .ok (.overSlots c.manager c.root (slotLevels c.manager c.layout.slots)) r := by
  refine onManager_ask_eq hopen ?_
  rw [hc.levels_eq fun slot => List.mem_range.mp, map_vars]
  rfl

/-- The calls on a cursor answer with what it lists, one by one, and then with none. -/
theorem nthTuple_eq {ts : List Tuple} {cursor : Cursor}
    (h : Lists (Cursor.next c.manager) ts cursor) (n : Nat) :
    nthTuple n cursor r = .ok ts[n]? r := by
  induction n generalizing ts cursor with
  | zero =>
      obtain ⟨cursor', run, _⟩ := h.step
      have hnext : nextTuple cursor r = .ok (ts.head?, cursor') r := onManager_ask_eq hopen run
      show EStateM.bind (nextTuple cursor) _ r = _
      rw [EStateM.bind, hnext, List.head?_eq_getElem?]
      rfl
  | succ n ih =>
      obtain ⟨cursor', run, hrest⟩ := h.step
      have hnext : nextTuple cursor r = .ok (ts.head?, cursor') r := onManager_ask_eq hopen run
      show EStateM.bind (nextTuple cursor) _ r = _
      rw [EStateM.bind, hnext]
      show nthTuple n cursor' r = _
      rw [ih hrest, List.getElem?_tail]

end Cursor

/-! ## 2. Main result -/

/-- **Enumeration is complete, exact and without duplicates.** The cursor of an open relation that
is reached answers with a finite sequence of determinate tuples, in which every tuple of the
relation comes exactly once and nothing else comes, and whose length is the relation's size. Every
later call answers with none. -/
theorem reached_tuples {r : Relation} (h : Reached r) {schema : Schema} {c : Contents}
    (hopen : r.stage = .opened schema c) : ∃ (cursor : Cursor) (ts : List Tuple),
      tuples r = .ok cursor r ∧
      (∀ n, nthTuple n cursor r = .ok ts[n]? r) ∧ ts.Nodup ∧
      (∀ t, t ∈ ts ↔ ∃ indices ∈ c.tuples, t = ofIndices indices) ∧
      (∀ t ∈ ts, t.isDeterminate = true) ∧ sizeExact r = .ok ts.length r := by
  have hc := h.contents hopen
  refine ⟨_, c.listed.map ofIndices, tuples_eq hopen hc, nthTuple_eq hopen hc.spells.lists,
    hc.nodup_listed.map ofIndices_injective, fun t => ?_, fun t ht => ?_, ?_⟩
  · rw [List.mem_map]
    exact exists_congr fun indices => and_congr hc.mem_listed eq_comm
  · obtain ⟨indices, _, rfl⟩ := List.mem_map.mp ht
    exact isDeterminate_ofIndices indices
  · have hS : c.tuples = ↑c.listed.toFinset := by
      ext t
      rw [Finset.mem_coe, List.mem_toFinset, hc.mem_listed]
    rw [sizeExact_eq hopen hc hS, List.toFinset_card_of_nodup hc.nodup_listed, List.length_map]

/-- A relation with three tuples is enumerated. -/
theorem reached_tuples_three : ∃ r schema c, Reached r ∧ r.stage = .opened schema c ∧
    c.tuples = {t | t ∈ [[0, 2], [1, 0], [1, 2]]} ∧
    ∃ (cursor : Cursor) (ts : List Tuple), tuples r = .ok cursor r ∧
      (∀ n, nthTuple n cursor r = .ok ts[n]? r) ∧
      ts.Perm [ofIndices [0, 2], ofIndices [1, 0], ofIndices [1, 2]] ∧
      sizeExact r = .ok 3 r ∧ nthTuple 3 cursor r = .ok none r := by
  let cat : Catalog := ⟨#[.words ⟨"V", fun n => s!"{n}", ⟨#[7, 9], ∅⟩⟩,
    .words ⟨"W", fun n => s!"{n}", ⟨#[4, 5, 6], ∅⟩⟩]⟩
  let schema : Schema := ⟨"own", ⟨["V0", "W0"], none, [[0], [1]]⟩, [0, 1]⟩
  obtain ⟨r, c, hr, hopen, _, htuples⟩ := exists_holding cat schema false rfl
    ⟨["V0", "W0"], none, rfl⟩ rfl rfl (by decide) [[0, 2], [1, 0], [1, 2]] (by decide)
  obtain ⟨cursor, ts, hcursor, hcalls, hnodup, hmem, _, hsize⟩ := reached_tuples hr hopen
  have hperm : ts.Perm ([[0, 2], [1, 0], [1, 2]].map ofIndices) := by
    refine (List.perm_ext_iff_of_nodup hnodup ?_).mpr fun t => ?_
    · exact (List.nodup_map_iff ofIndices_injective).mpr (by decide)
    · rw [hmem, htuples, List.mem_map]
      exact exists_congr fun indices => and_congr Iff.rfl eq_comm
  have hlen : ts.length = 3 := hperm.length_eq
  refine ⟨r, schema, c, hr, hopen, htuples, cursor, ts, hcursor, hcalls, hperm, hlen ▸ hsize, ?_⟩
  rw [hcalls, List.getElem?_eq_none hlen.le]

end Factbase.Relation
