import Factbase.Proofs.Diagram.Resting
import Factbase.Proofs.Relation.Lending
import Factbase.Proofs.Relation.Projecting
import Factbase.Proofs.Relation.Views

/-!
# Sources of cursors

A cursor of a relation is over all tuples, over a projection, over a view, or over all tuples as
values.

* `Source.cursor`, `Source.next`: a new cursor and the calls on it;
* `Source.alone`: what a cursor hands out that is run to its end at once;
* `Source.ends_cursor`, `Source.cursor_error`: **where a source is admitted, its cursor is over an
  edge that stands for tuples**; else it is refused;
* `Source.alone_eq`, `Source.next_eq`: what is handed out is what is made of the tuples listed.
-/

namespace Factbase.Relation

open Diagram

/-! ## 1. Cursors -/

/-- What a cursor hands out: indices, or values where they can be decoded. -/
inductive Item where
  | indices (t : Tuple)
  | values (result : Except RelationError (List Value))
deriving DecidableEq

/-- What a cursor is over. -/
inductive Source where
  | all
  | onto (slots : List Nat)
  | view (v : View)
  | values (types : List ElementType)

namespace Source

/-- A new cursor. -/
def cursor : Source → RelationM Cursor
  | .all => tuples
  | .onto slots => tuplesOf slots
  | .view v => v.tuples
  | .values types => do
    let (_, _, layout) ← opening
    orProblem (checkArity layout types.length)
    tuples

/-- What the cursor makes of a tuple. -/
def item (cat : Catalog) (schema : Schema) : Source → Tuple → Item
  | .values types, t => .values (decodeTuple cat schema types t)
  | _, t => .indices t

/-- The next item of a cursor. -/
def next (cat : Catalog) (source : Source) (c : Cursor) : RelationM (Option Item × Cursor) := do
  let (schema, _, _) ← opening
  let (t, c) ← nextTuple c
  return (t.map (source.item cat schema), c)

/-- All items of a cursor that is run to its end as soon as it is made. -/
def alone (cat : Catalog) : Source → RelationM (List Item)
  | .values types => do return (← Relation.values cat types none).map .values
  | source => do return (← takeTuples (← source.cursor) none).map .indices

/-- The source is one of the relation: it has the slots, and the view is one of the given ones. -/
def Admitted (views : List View) (layout : Layout) : Source → Prop
  | .all => True
  | .onto slots => ∀ slot ∈ slots, slot < layout.arity
  | .view v => v ∈ views
  | .values types => types.length = layout.arity

end Source

/-! ## 2. New cursors -/

/-- A cursor over slots of the relation, before its first tuple. -/
def Fresh (cursor : Cursor) (c : Contents) : Prop :=
  ∃ blocks f, Spells c.manager blocks f ∧
    cursor = .overSlots c.manager f (slotLevels c.manager blocks)

section Opened

variable {r : Relation} {schema : Schema} {c : Contents} (hopen : r.stage = .opened schema c)
  (hc : c.Sound schema)

include hopen

namespace Source

variable {source : Source} {views : List View}

/-- **Where a source is admitted, its cursor is over an edge that stands for tuples.** -/
theorem ends_cursor (hc : c.Sound schema) (hviews : ∀ v ∈ views, ∃ x, v.StandsFor c x)
    (hadmitted : source.Admitted views c.layout) :
    Ends source.cursor r fun cursor => Lent r schema c (Fresh cursor) := by
  have hall : Ends tuples r fun cursor => Lent r schema c (Fresh cursor) :=
    ⟨_, _, tuples_eq hopen hc, lent_refl hopen hc ⟨_, _, hc.spells, rfl⟩⟩
  cases source with
  | all => exact hall
  | onto slots =>
      refine (ends_tuplesOf hopen hc hadmitted).mono fun cursor r' ⟨m, n, hr', hprojects⟩ => ?_
      obtain ⟨f, hspells, _, hcursor⟩ := hprojects
      exact ⟨m, n, hr', _, f, hspells, hcursor⟩
  | view v =>
      obtain ⟨x, hv⟩ := hviews v hadmitted
      exact ⟨_, _, hv.tuples_eq hopen hc, lent_refl hopen hc ⟨_, _, hv.spells hc, rfl⟩⟩
  | values types =>
      exact ends_bind (opening_eq hopen) (ends_bind (orProblem_eq_ok (if_pos hadmitted)) hall)

/-- Any other source is refused. -/
theorem cursor_error (hviews : ∀ v, source = .view v → v ∈ views)
    (hadmitted : ¬ source.Admitted views c.layout) : ∃ e, source.cursor r = .error e r := by
  cases source with
  | all => exact absurd trivial hadmitted
  | onto slots => exact tuplesOf_error hopen hadmitted
  | view v => exact absurd (hviews v rfl) hadmitted
  | values types =>
      exact ⟨_, (bind_of_ok (opening_eq hopen)).trans
        (bind_eq_error (orProblem_eq_error (if_neg hadmitted)))⟩

variable {cursor cursor' : Cursor} {r' : Relation} {ts : List Tuple}

/-- A cursor that is run to its end hands out what is made of its tuples. -/
theorem alone_eq (cat : Catalog) (run : source.cursor r = .ok cursor r')
    (htake : takeTuples cursor none r' = .ok ts r') :
    source.alone cat r = .ok (ts.map (source.item cat schema)) r' := by
  cases source with
  | values types =>
      obtain ⟨_, r₁, hopening, run⟩ := run_ok_of_bind run
      obtain ⟨rfl, rfl⟩ := EStateM.Result.ok.inj ((opening_eq hopen).symm.trans hopening)
      obtain ⟨_, r₂, harity, run⟩ := run_ok_of_bind run
      have hvalues : Relation.values cat types none r =
          .ok (ts.map (decodeTuple cat schema types)) r' :=
        (bind_of_ok (opening_eq hopen)).trans ((bind_of_ok harity).trans
          ((bind_of_ok run).trans (bind_of_ok htake)))
      refine (bind_of_ok hvalues).trans ?_
      rw [List.map_map]
      rfl
  | _ => exact (bind_of_ok run).trans (bind_of_ok htake)

/-- The next tuple is handed out as what is made of it. -/
theorem next_eq (cat : Catalog) {t : Option Tuple}
    (run : cursor.next c.manager = .ok (t, cursor')) :
    source.next cat cursor r = .ok (t.map (source.item cat schema), cursor') r := by
  have hnext : nextTuple cursor r = .ok (t, cursor') r := onManager_ask_eq hopen run
  exact (bind_of_ok (opening_eq hopen)).trans (bind_of_ok hnext)

end Source

end Opened

end Factbase.Relation
