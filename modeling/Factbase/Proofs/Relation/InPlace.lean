import Factbase.Proofs.Relation.Interleaving

/-!
# Views changed in place

The calls that narrow a view as programs over the view and its relation: they check first and then
assign the fields of the view one by one, and what they have assigned stays where they stop.

* `ViewM`, `ViewM.onRelation`, `ViewM.setRoot`, `ViewM.hide`: such programs, and what they are made
  of;
* `Narrowing.inPlace`: the calls as such programs;
* `Settles`: **a program turns the view into what a call answers, and leaves it where the call is
  refused**;
* `Settles.bind`, `Settles.next`: one step behind another, of the relation and of the view;
* `settles_inPlace`: so it is with every call on a view that stands for an excerpt, also where two
  changes are made by one call;
* `changes_cases`: **a call is refused and changes nothing, or it goes through**;
* `reached_inPlace`: **runs of deeds on views that are changed in place come to the same views.**
-/

namespace Factbase.Relation

open Diagram

/-! ## 1. Programs -/

/-- A program over a view and its relation. -/
abbrev ViewM := EStateM Failure (View × Relation)

namespace ViewM

variable {α : Type}

/-- Run a program of the relation. -/
def onRelation (act : RelationM α) : ViewM α := fun (v, r) =>
  match act r with
  | .ok a r => .ok a (v, r)
  | .error e r => .error e (v, r)

/-- Replace the diagram of the view. -/
def setRoot (root : Edge) : ViewM Unit := modify fun (v, r) => ({ v with root }, r)

/-- Mark a slot of the view as deleted. -/
def hide (slot : Nat) : ViewM Unit := modify fun (v, r) =>
  ({ v with visible := v.visible.set slot false }, r)

/-- Refuse a slot that the relation does not have or the view has no more. -/
def requireSlot (slot : Nat) : ViewM Unit := do onRelation ((← get).1.requireSlot slot)

/-- Keep the tuples with an index in a slot. -/
def selectIndex (cat : Catalog) (slot index : Nat) : ViewM Unit := do
  requireSlot slot
  let (schema, _, layout) ← onRelation opening
  let index ← onRelation (orProblem (checkSlot cat schema layout slot index))
  let root := (← get).1.root
  setRoot (← onRelation (onManager fun _ layout => do
    Manager.conj root (← Manager.cube (layout.literals slot index))))

/-- Keep the tuples with a value in a slot. -/
def select (cat : Catalog) (slot : Nat) (value : Value) : ViewM Unit := do
  requireSlot slot
  let (schema, _, _) ← onRelation opening
  let index ← onRelation (orProblem (resolveValue (schema.domain cat slot) slot value))
  selectIndex cat slot index

/-- Project a slot away. -/
def delete (slot : Nat) : ViewM Unit := do
  requireSlot slot
  let root := (← get).1.root
  setRoot (← onRelation (onManager fun _ layout =>
    Manager.project root (layout.sets[slot]?.getD .one)))
  hide slot

end ViewM

/-- The call on a view that is changed in place. -/
def Narrowing.inPlace (cat : Catalog) : Narrowing → ViewM Unit
  | .byIndex (.selectIndex slot index) => ViewM.selectIndex cat slot index
  | .byIndex (.delete slot) => ViewM.delete slot
  | .byIndex (.selectIndexAndDelete slot index) => do
      ViewM.selectIndex cat slot index
      ViewM.delete slot
  | .select slot value => ViewM.select cat slot value
  | .selectAndDelete slot value => do
      ViewM.select cat slot value
      ViewM.delete slot

/-! ## 2. What a program leaves -/

/-- The program turns the view into what the call answers, and leaves it where the call is
refused. -/
def Settles (act : ViewM Unit) (v : View) (r : Relation) (call : RelationM View) : Prop :=
  act (v, r) =
    match call r with
    | .ok v' r' => .ok () (v', r')
    | .error e r' => .error e (v, r')

section Settles

variable {v : View} {r : Relation} {α : Type}

/-- **A step of the relation comes first.** -/
theorem Settles.bind {act : RelationM α} {next : α → ViewM Unit} {call : α → RelationM View}
    (h : ∀ a r', act r = .ok a r' → Settles (next a) v r' (call a)) :
    Settles (ViewM.onRelation act >>= next) v r (act >>= call) := by
  unfold Settles
  cases run : act r with
  | ok a r' =>
      have hlifted : ViewM.onRelation act (v, r) = .ok a (v, r') := by
        simp only [ViewM.onRelation, run]
      rw [bind_of_ok run, bind_of_ok hlifted]
      exact h a r' run
  | error e r' =>
      have hlifted : ViewM.onRelation act (v, r) = .error e (v, r') := by
        simp only [ViewM.onRelation, run]
      rw [bind_eq_error run, bind_eq_error hlifted]

/-- **Two changes are made one behind the other**, if the second is never refused behind the
first. -/
theorem Settles.next {act act' : ViewM Unit} {call : RelationM View} {call' : View → RelationM View}
    (h : Settles act v r call)
    (h' : ∀ v' r', call r = .ok v' r' → (∃ v'' r'', call' v' r' = .ok v'' r'') ∧
      Settles act' v' r' (call' v')) :
    Settles (act >>= fun _ => act') v r (call >>= call') := by
  unfold Settles at h ⊢
  cases run : call r with
  | error e r' =>
      rw [run] at h
      rw [bind_eq_error run, bind_eq_error h]
  | ok v' r' =>
      obtain ⟨⟨v'', r'', run'⟩, h''⟩ := h' v' r' run
      rw [run] at h
      rw [Settles, run'] at h''
      rw [bind_of_ok run, bind_of_ok h, h'', run']

/-- The view may be looked at. -/
theorem Settles.get {next : View × Relation → ViewM Unit} {call : RelationM View}
    (h : Settles (next (v, r)) v r call) :
    Settles (MonadState.get >>= next) v r call := h

end Settles

/-! ## 3. Calls -/

section Calls

variable {v : View} {r : Relation} (cat : Catalog) (slot index : Nat)

theorem settles_requireSlot {next : ViewM Unit} {call : RelationM View}
    (h : ∀ r', v.requireSlot slot r = .ok () r' → Settles next v r' call) :
    Settles (ViewM.requireSlot slot >>= fun _ => next) v r
      (v.requireSlot slot >>= fun _ => call) := by
  show Settles (ViewM.onRelation (v.requireSlot slot) >>= fun _ => next) v r _
  exact Settles.bind fun _ r' run => h r' run

theorem settles_selectIndex :
    Settles (ViewM.selectIndex cat slot index) v r (v.selectIndex cat slot index) := by
  refine settles_requireSlot slot fun _ _ => ?_
  refine Settles.bind fun _ _ _ => Settles.bind fun index _ _ => Settles.get ?_
  exact Settles.bind fun root _ _ => rfl

theorem settles_select (value : Value) :
    Settles (ViewM.select cat slot value) v r (v.select cat slot value) := by
  refine settles_requireSlot slot fun _ _ => ?_
  refine Settles.bind fun _ _ _ => Settles.bind fun index _ _ => ?_
  exact settles_selectIndex cat slot index

theorem settles_delete : Settles (ViewM.delete slot) v r (v.delete slot) := by
  refine settles_requireSlot slot fun _ _ => Settles.get ?_
  exact Settles.bind fun root _ _ => rfl

end Calls

section Excerpts

variable {v : View} {r : Relation} {schema : Schema} {c : Contents} {x : Excerpt}
  (hopen : r.stage = .opened schema c) (hc : c.Sound schema) (h : v.StandsFor c x) (cat : Catalog)

include hopen hc h

/-- **What is selected in a slot can be deleted**: the second half of a call is not refused. -/
theorem exists_delete {slot index : Nat} {v' : View} {r' : Relation}
    (run : v.selectIndex cat slot index r = .ok v' r') :
    ∃ v'' r'', v'.delete slot r' = .ok v'' r'' := by
  by_cases hadmitted : ViewCall.Admitted cat schema c.layout x (.selectIndexAndDelete slot index)
  · obtain ⟨v'', r'', both, _⟩ := ViewCall.ends_run hopen h hc hadmitted
    exact ⟨v'', r'', (bind_of_ok run).symm.trans both⟩
  · have hrefused : ∃ e, ViewCall.run cat v (.selectIndex slot index) r = .error e r :=
      ViewCall.run_error hopen h hadmitted
    obtain ⟨e, refused⟩ := hrefused
    cases run.symm.trans refused

/-- **A call in place settles the view.** -/
theorem settles_inPlace (call : Narrowing) :
    Settles (call.inPlace cat) v r (call.run cat v) := by
  cases call with
  | byIndex call =>
      cases call with
      | selectIndex slot index => exact settles_selectIndex cat slot index
      | delete slot => exact settles_delete slot
      | selectIndexAndDelete slot index =>
          refine (settles_selectIndex cat slot index).next fun v' r' run => ?_
          exact ⟨exists_delete hopen hc h cat run, settles_delete slot⟩
  | select slot value => exact settles_select cat slot value
  | selectAndDelete slot value =>
      refine (settles_select cat slot value).next fun v' r' run => ⟨?_, settles_delete slot⟩
      obtain ⟨e, refused⟩ | ⟨index, same⟩ := v.select_cases hopen cat slot value
      · rw [refused] at run
        cases run
      · exact exists_delete hopen hc h cat (same.symm.trans run)

/-- **A call in place is refused and leaves the view and the relation as they were, or it goes
through.** -/
theorem changes_cases (call : Narrowing) :
    (∃ e, call.run cat v r = .error e r ∧ call.inPlace cat (v, r) = .error e (v, r)) ∨
      ∃ v' r', call.run cat v r = .ok v' r' ∧ call.inPlace cat (v, r) = .ok () (v', r') := by
  have hsettles := settles_inPlace hopen hc h cat call
  unfold Settles at hsettles
  rcases narrows_run hopen cat hc h call with ⟨e, run⟩ | ⟨v', r', run, _⟩
  · rw [run] at hsettles
    exact Or.inl ⟨e, run, hsettles⟩
  · rw [run] at hsettles
    exact Or.inr ⟨v', r', run, hsettles⟩

end Excerpts

/-! ## 4. Runs -/

/-- A deed on the views and the relation, where a call leaves its view as it has changed it. -/
def ViewDeed.stepInPlace (before : List View × Relation) : ViewDeed → List View × Relation
  | .narrow k cat call =>
      match before.1[k]? with
      | none => before
      | some v =>
          let behind := after ((Narrowing.byIndex call).inPlace cat) (v, before.2)
          (before.1.set k behind.1, behind.2)
  | deed => deed.step before

/-- The views of a relation behind a run of deeds that change them in place, and the relation. -/
def performInPlace (deeds : List ViewDeed) (r : Relation) : List View × Relation :=
  deeds.foldl ViewDeed.stepInPlace ([], r)

section Runs

variable {r : Relation} {schema : Schema} {c : Contents} (hopen : r.stage = .opened schema c)
  (hc : c.Sound schema) {views : List View} {xs : List Excerpt}
  (h : List.Forall₂ (fun v x => View.StandsFor v c x) views xs)

include hopen hc h

/-- **A deed in place comes to the same views.** -/
theorem stepInPlace_eq (deed : ViewDeed) : deed.stepInPlace (views, r) = deed.step (views, r) := by
  cases deed with
  | create => rfl
  | look k cat t => rfl
  | narrow k cat call =>
      rw [ViewDeed.stepInPlace, ViewDeed.step]
      cases hget : views[k]? with
      | none => rfl
      | some v =>
          obtain ⟨hk, rfl⟩ := List.getElem?_eq_some_iff.mp hget
          obtain ⟨x, _, hv⟩ := exists_of_forall₂ h hget
          rcases changes_cases hopen hc hv cat (.byIndex call) with ⟨e, run, refused⟩ |
            ⟨v', r', run, changed⟩
          · rw [Narrowing.run] at run
            simp only [after, refused, run, List.set_getElem_self]
          · rw [Narrowing.run] at run
            simp only [after, changed, run]

/-- **So does a run.** -/
theorem foldl_stepInPlace (deeds : List ViewDeed) :
    deeds.foldl ViewDeed.stepInPlace (views, r) = deeds.foldl ViewDeed.step (views, r) := by
  induction deeds generalizing r c views xs with
  | nil => rfl
  | cons deed deeds ih =>
      obtain ⟨m, n, hr', h'⟩ := lent_step hopen hc h deed
      rw [List.foldl_cons, List.foldl_cons, stepInPlace_eq hopen hc h]
      exact ih (congrArg stage hr') (hc.next n (n.holds hc.root)) h'

end Runs

/-! ## 5. Main result -/

/-- **Views may be changed in place.** Whatever is done in whatever order with views of an open
relation that is reached, they come to the same, and so does the relation, whether a call answers
with a new view or assigns the fields of its view; and a call on one of them, by index or by value,
either goes through or leaves the view and the relation as they were. -/
theorem reached_inPlace {r : Relation} (h : Reached r) {schema : Schema} {c : Contents}
    (hopen : r.stage = .opened schema c) (deeds : List ViewDeed) :
    performInPlace deeds r = perform deeds r ∧
      ∀ v ∈ (performInPlace deeds r).1, ∀ cat (call : Narrowing),
        let s := (v, (performInPlace deeds r).2)
        (∃ e, call.inPlace cat s = .error e s) ∨
          ∃ v' r', call.run cat v s.2 = .ok v' r' ∧ call.inPlace cat s = .ok () (v', r') := by
  have hc := h.contents hopen
  have hsame : performInPlace deeds r = perform deeds r :=
    foldl_stepInPlace hopen hc .nil deeds
  obtain ⟨m, n, hr', hviews⟩ := lent_foldl hopen hc .nil deeds
  refine ⟨hsame, fun v hv cat call => ?_⟩
  rw [hsame] at hv ⊢
  obtain ⟨k, hget⟩ := List.mem_iff_getElem?.mp hv
  obtain ⟨x, _, hx⟩ := exists_of_forall₂ hviews hget
  exact (changes_cases (congrArg stage hr') (hc.next n (n.holds hc.root)) hx cat call).imp_left
    fun ⟨e, _, refused⟩ => ⟨e, refused⟩

end Factbase.Relation
