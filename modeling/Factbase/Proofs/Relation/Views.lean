import Factbase.Proofs.Relation.Filling
import Factbase.Proofs.Relation.Narrowing

/-!
# Views as excerpts

What a view of an open relation answers is what its excerpt says, and what is done with one view
does not reach another.

* `View.StandsFor.sizeExact_eq`: **the count over all variables, divided by the settings of those
  that are deleted, is the number of tuples**;
* `View.StandsFor.ends_containsIndices`, `View.StandsFor.containsIndices_error`: the test of a
  tuple;
* `ViewCall`, `ViewDeed`: the calls that narrow a view, and what is done with the views of a
  relation in any order;
* `View.Shows`, `View.StandsFor.shows`: **all answers of a view are those of its excerpt**;
* `lent_step`, `lent_foldl`: a run of deeds does to the views what it does to their excerpts;
* `reached_views`: **views compute selections and projections**, however many there are and however
  the calls on them interleave.
-/

namespace Factbase.Relation

open Diagram

namespace View

/-! ## 1. Questions -/

section Questions

variable {r : Relation} {schema : Schema} {c : Contents} (hopen : r.stage = .opened schema c)
  (hc : c.Sound schema) {v : View} {x : Excerpt} (h : v.StandsFor c x)

include hc h

/-- The variables that are not those of the excerpt are the bits of the deleted slots. -/
theorem StandsFor.card_hidden :
    ((List.range v.visible.length).filter fun slot => !(v.visible[slot]?.getD false)).foldl
        (fun n slot => n + c.layout.width slot) 0 =
      (c.layout.variables \ (x.blocks c.layout).flatten.toFinset).card := by
  have hperm := List.filter_append_perm (fun slot => v.visible[slot]?.getD false)
    (List.range v.visible.length)
  have hlen := (hperm.map c.layout.vars).flatten.length_eq
  rw [h.arity, map_vars, List.map_append, List.flatten_append, List.length_append] at hlen
  have hvisible : (x.blocks c.layout).flatten.length = (((List.range c.layout.arity).filter
      fun slot => v.visible[slot]?.getD false).map c.layout.vars).flatten.length := by
    rw [Excerpt.blocks, ← h.slots, View.slots, h.arity]
  rw [Finset.card_sdiff_of_subset h.subset_variables, hc.card_variables,
    List.toFinset_card_of_nodup (h.flatten_sublist.nodup hc.layout.nodup), h.arity,
    ← List.foldl_map (f := c.layout.width) (g := (· + ·)), ← List.sum_eq_foldl, hvisible, ← hlen,
    Nat.add_sub_cancel_left, List.length_flatten, List.map_map]
  rfl

include hopen

theorem StandsFor.tuples_eq : v.tuples r =
    .ok (.overSlots c.manager v.root (slotLevels c.manager (x.blocks c.layout))) r := by
  refine onManager_ask_eq hopen ?_
  rw [h.slots, hc.levels_eq fun slot hslot => List.mem_range.mp (h.sublist.subset hslot)]
  rfl

omit hopen hc h in
/-- The literals of indices that are accepted. -/
theorem placed_eq {cat : Catalog} {t : List Nat}
    (ht : List.Forall₂ (InSlot cat schema c.layout) x.slots t) :
    ((x.slots.zip t).mapM fun (slot, index) => do
      return c.layout.literals slot (← checkSlot cat schema c.layout slot index)) =
      .ok (List.zipWith Layout.bitLiterals (x.blocks c.layout) t) := by
  rw [mapM_eq_ok (g := fun (slot, index) => c.layout.literals slot index), Excerpt.blocks,
    List.map_zip_eq_zipWith, List.zipWith_map_left]
  · rfl
  · rintro ⟨slot, index⟩ hmem
    exact bind_eq_ok (checkSlot_eq ((List.forall₂_iff_zip.mp ht).2 hmem)) rfl

/-- **A tuple of indices that are accepted is found where the excerpt has it.** -/
theorem StandsFor.ends_containsIndices {cat : Catalog} {t : List Nat}
    (ht : List.Forall₂ (InSlot cat schema c.layout) x.slots t) :
    Ends (v.containsIndices cat t) r fun found =>
      Lent r schema c fun _ => found = true ↔ t ∈ x.tuples := by
  have hfits : List.Forall₂ (fun vars k => k < 2 ^ List.length vars) (x.blocks c.layout) t :=
    List.forall₂_map_left_iff.mpr (ht.imp fun _ _ hindex => hindex.2)
  have hfound := Manager.ends_meets hc.manager h.held
    (hc.layout.makes_cube hc.manager h.flatten_sublist hfits)
  unfold containsIndices
  rw [h.slots]
  refine ends_unless (not_not.mpr ht.length_eq.symm) (ends_bind (opening_eq hopen) ?_)
  refine ends_bind (orProblem_eq_ok (placed_eq ht)) ?_
  refine Ends.mono (ends_onManager hopen hfound) fun found r' ⟨m, hr', n, heq⟩ => ⟨m, n, hr', ?_⟩
  rw [heq, ← h.tuples]
  exact exists_congr fun ρ => by rw [decide_eq_true_iff, and_comm]

omit hc in
/-- Any other tuple is refused. -/
theorem StandsFor.containsIndices_error {cat : Catalog} {t : List Nat}
    (ht : ¬ List.Forall₂ (InSlot cat schema c.layout) x.slots t) :
    ∃ e, v.containsIndices cat t r = .error e r := by
  unfold containsIndices
  rw [h.slots]
  by_cases hlen : t.length = x.slots.length
  · have hbad : ∃ p ∈ x.slots.zip t, ∀ literals, (do
        return c.layout.literals p.1 (← checkSlot cat schema c.layout p.1 p.2)) ≠
          (.ok literals : Except RelationProblem (List Int)) := by
      by_contra hall
      refine ht (List.forall₂_iff_zip.mpr ⟨hlen.symm, fun {slot index} hmem => ?_⟩)
      by_contra hindex
      obtain ⟨problem, hcheck⟩ := checkSlot_error hindex
      refine hall ⟨_, hmem, fun literals heq => ?_⟩
      rw [hcheck] at heq
      cases heq
    obtain ⟨problem, hplaced, _⟩ := mapM_eq_error hbad
    rw [if_neg (not_not.mpr hlen)]
    exact ⟨_, (bind_of_ok (opening_eq hopen)).trans (bind_eq_error (orProblem_eq_error hplaced))⟩
  · rw [if_pos hlen]
    exact ⟨_, rfl⟩

variable {S : Finset (List Nat)} (hS : x.tuples = ↑S)

include hS

theorem StandsFor.isEmpty_eq : v.isEmpty r = .ok (decide (S = ∅)) r := by
  have hempty : v.root = .zero ↔ S = ∅ := by
    rw [(h.spells hc).eq_zero_iff, h.tuples, hS, Finset.coe_eq_empty]
  unfold isEmpty
  rw [bind_of_ok (opening_eq hopen), ← decide_eq_decide.mpr hempty]
  rfl

theorem StandsFor.sizeExact_eq : v.sizeExact r = .ok S.card r := by
  have hvars : c.manager.numVars = c.layout.variables.card := by
    rw [hc.card_variables, hc.layout.flat, List.length_range']
  have hall : c.manager.DependsOn c.layout.variables v.root := fun ρ ρ' agree =>
    h.dependsOn ρ ρ' fun v hv => agree v (h.subset_variables hv)
  have hmodels := Manager.card_models_of_subset h.dependsOn h.subset_variables
  rw [(h.spells hc).card_models (h.tuples.trans hS)] at hmodels
  refine onManager_ask_eq hopen ?_
  dsimp only
  rw [hvars, Manager.satCount_eq hc.manager h.held hall, h.card_hidden hc, hmodels]
  show Except.ok (2 ^ _ * S.card / 2 ^ _) = _
  rw [Nat.mul_div_cancel_left _ (Nat.two_pow_pos _)]

theorem StandsFor.size_eq : v.size r = .ok (min S.card greatestWord) r := by
  unfold size
  rw [bind_of_ok (h.sizeExact_eq hopen hc hS)]
  rfl

end Questions

end View

/-! ## 2. Calls -/

/-- A call that narrows a view. -/
inductive ViewCall where
  | selectIndex (slot index : Nat)
  | delete (slot : Nat)
  | selectIndexAndDelete (slot index : Nat)

namespace ViewCall

/-- The call on a view. -/
def run (cat : Catalog) (v : View) : ViewCall → RelationM View
  | .selectIndex slot index => v.selectIndex cat slot index
  | .delete slot => v.delete slot
  | .selectIndexAndDelete slot index => v.selectIndexAndDelete cat slot index

/-- The call names a slot that is still there and an index that is accepted in it. -/
def Admitted (cat : Catalog) (schema : Schema) (layout : Layout) (x : Excerpt) : ViewCall → Prop
  | .delete slot => slot ∈ x.slots
  | .selectIndex slot index | .selectIndexAndDelete slot index =>
      slot ∈ x.slots ∧ InSlot cat schema layout slot index

/-- The call on an excerpt, where it is admitted. -/
def effect (x : Excerpt) : ViewCall → Excerpt
  | .selectIndex slot index => x.select slot index
  | .delete slot => x.delete slot
  | .selectIndexAndDelete slot index => (x.select slot index).delete slot

instance (cat : Catalog) (schema : Schema) (layout : Layout) (x : Excerpt) (call : ViewCall) :
    Decidable (call.Admitted cat schema layout x) :=
  match call with
  | .delete _ => inferInstanceAs (Decidable (_ ∈ _))
  | .selectIndex _ _ | .selectIndexAndDelete _ _ => inferInstanceAs (Decidable (_ ∧ _))

/-- The call on an excerpt. It counts only where it is admitted. -/
def replay (cat : Catalog) (schema : Schema) (layout : Layout) (call : ViewCall)
    (x : Excerpt) : Excerpt :=
  if call.Admitted cat schema layout x then call.effect x else x

section Calls

variable {r : Relation} {schema : Schema} {c : Contents} (hopen : r.stage = .opened schema c)
  {v : View} {x : Excerpt} (h : v.StandsFor c x) {cat : Catalog} {call : ViewCall}

include hopen h

/-- **A call does to a view what it does to its excerpt.** -/
theorem ends_run (hc : c.Sound schema) (hadmitted : call.Admitted cat schema c.layout x) :
    Ends (call.run cat v) r fun v' =>
      Lent r schema c fun c' => v'.StandsFor c' (call.effect x) := by
  cases call with
  | selectIndex slot index =>
      exact View.ends_selectIndex hopen hc h hadmitted.1 hadmitted.2
  | delete slot => exact View.ends_delete hopen hc h hadmitted
  | selectIndexAndDelete slot index =>
      exact View.ends_selectIndexAndDelete hopen hc h hadmitted.1 hadmitted.2

/-- Any other call is refused. -/
theorem run_error (hadmitted : ¬ call.Admitted cat schema c.layout x) :
    ∃ e, call.run cat v r = .error e r := by
  cases call with
  | selectIndex slot index =>
      exact View.selectIndex_error hopen (h.slots ▸ hadmitted)
  | delete slot => exact View.delete_error (h.slots ▸ hadmitted)
  | selectIndexAndDelete slot index =>
      exact View.selectIndexAndDelete_error hopen (h.slots ▸ hadmitted)

end Calls

end ViewCall

/-- The view answers what its excerpt says. -/
structure View.Shows (v : View) (r : Relation) (schema : Schema) (layout : Layout) (x : Excerpt) :
    Prop where
  slots : v.slots = x.slots
  /-- The tuples are over the slots that are still there. -/
  lengths : ∀ t ∈ x.tuples, t.length = x.slots.length
  /-- Over no slots there is at most the empty tuple. -/
  bare : x.slots = [] → x.tuples = ∅ ∨ x.tuples = {[]}
  /-- The cursor answers with every tuple once, with nothing else, and then with none. -/
  enumerated : ∃ (cursor : Cursor) (ts : List Tuple), v.tuples r = .ok cursor r ∧
    (∀ n, nthTuple n cursor r = .ok ts[n]? r) ∧ ts.Nodup ∧
    ∀ t, t ∈ ts ↔ ∃ indices ∈ x.tuples, t = ofIndices indices
  counted : ∃ S : Finset (List Nat), x.tuples = ↑S ∧ v.isEmpty r = .ok (decide (S = ∅)) r ∧
    v.sizeExact r = .ok S.card r ∧ v.size r = .ok (min S.card greatestWord) r
  found : ∀ cat t, List.Forall₂ (InSlot cat schema layout) x.slots t →
    ∃ found r', v.containsIndices cat t r = .ok found r' ∧ (found = true ↔ t ∈ x.tuples)
  notFound : ∀ cat t, ¬ List.Forall₂ (InSlot cat schema layout) x.slots t →
    ∃ e, v.containsIndices cat t r = .error e r
  narrowed : ∀ cat call, ViewCall.Admitted cat schema layout x call →
    ∃ v' r', call.run cat v r = .ok v' r' ∧ v'.slots = (call.effect x).slots
  refused : ∀ cat call, ¬ ViewCall.Admitted cat schema layout x call →
    ∃ e, call.run cat v r = .error e r

/-- **All answers of a view are those of its excerpt.** -/
theorem View.StandsFor.shows {r : Relation} {schema : Schema} {c : Contents}
    (hopen : r.stage = .opened schema c) (hc : c.Sound schema) {v : View} {x : Excerpt}
    (h : v.StandsFor c x) : v.Shows r schema c.layout x where
  slots := h.slots
  lengths _ := h.length_eq
  bare hslots := Set.subset_singleton_iff_eq.mp fun t ht =>
    List.length_eq_zero_iff.mp ((h.length_eq ht).trans (congrArg List.length hslots))
  enumerated := by
    have hspells := h.spells hc
    refine ⟨_, _, h.tuples_eq hopen hc, nthTuple_eq hopen hspells.lists,
      hspells.nodup_listed.map ofIndices_injective, fun t => ?_⟩
    rw [List.mem_map, ← h.tuples]
    exact exists_congr fun indices => and_congr hspells.mem_listed eq_comm
  counted := by
    have hS : x.tuples = ↑(listed c.manager (x.blocks c.layout) v.root).toFinset := by
      ext t
      rw [Finset.mem_coe, List.mem_toFinset, (h.spells hc).mem_listed, h.tuples]
    exact ⟨_, hS, h.isEmpty_eq hopen hc hS, h.sizeExact_eq hopen hc hS, h.size_eq hopen hc hS⟩
  found cat t ht := by
    obtain ⟨found, r', run, _, _, _, heq⟩ := h.ends_containsIndices hopen hc ht
    exact ⟨found, r', run, heq⟩
  notFound cat t ht := h.containsIndices_error hopen ht
  narrowed cat call hadmitted := by
    obtain ⟨v', r', run, _, _, _, h'⟩ := call.ends_run hopen h hc hadmitted
    exact ⟨v', r', run, h'.slots⟩
  refused cat call hadmitted := call.run_error hopen h hadmitted

/-! ## 3. Runs -/

/-- What is done with the views of a relation, which are numbered. -/
inductive ViewDeed where
  | create
  | narrow (k : Nat) (cat : Catalog) (call : ViewCall)
  | look (k : Nat) (cat : Catalog) (t : List Nat)

namespace ViewDeed

/-- A deed on the views and the relation. A view stays as it was where a call is refused. -/
def step (before : List View × Relation) : ViewDeed → List View × Relation
  | .create =>
      match View.create before.2 with
      | .ok v r => (before.1 ++ [v], r)
      | .error _ r => (before.1, r)
  | .narrow k cat call =>
      match before.1[k]? with
      | none => before
      | some v =>
          match call.run cat v before.2 with
          | .ok v' r => (before.1.set k v', r)
          | .error _ r => (before.1, r)
  | .look k cat t =>
      match before.1[k]? with
      | none => before
      | some v => (before.1, after (v.containsIndices cat t) before.2)

/-- A deed on the excerpts of a relation with the given tuples. -/
def effect (schema : Schema) (layout : Layout) (tuples : Set (List Nat))
    (before : List Excerpt) : ViewDeed → List Excerpt
  | .create => before ++ [⟨List.range layout.arity, tuples⟩]
  | .narrow k cat call => before.modify k (call.replay cat schema layout)
  | .look _ _ _ => before

end ViewDeed

/-- The views of a relation behind a run of deeds, and the relation. -/
def perform (deeds : List ViewDeed) (r : Relation) : List View × Relation :=
  deeds.foldl ViewDeed.step ([], r)

/-- The excerpts behind a run of deeds. -/
def excerpts (schema : Schema) (c : Contents) (deeds : List ViewDeed) : List Excerpt :=
  deeds.foldl (ViewDeed.effect schema c.layout c.tuples) []

/-- Elements at one place of two lists that correspond may change. -/
theorem forall₂_set_modify {α β : Type} {R : α → β → Prop} {xs : List α} {ys : List β}
    (h : List.Forall₂ R xs ys) {k : Nat} {x : α} {f : β → β}
    (hk : ∀ y, ys[k]? = some y → R x (f y)) : List.Forall₂ R (xs.set k x) (ys.modify k f) := by
  induction h generalizing k with
  | nil =>
      rw [List.set_nil, List.modify_nil]
      exact .nil
  | cons hhead htail ih =>
      cases k with
      | zero => exact .cons (hk _ rfl) htail
      | succ k => exact .cons hhead (ih fun y hy => hk y hy)

section Runs

variable {r : Relation} {schema : Schema} {c : Contents} (hopen : r.stage = .opened schema c)
  (hc : c.Sound schema) {views : List View} {xs : List Excerpt}
  (h : List.Forall₂ (fun v x => View.StandsFor v c x) views xs)

include hopen hc

omit hc in
theorem View.create_eq :
    View.create r = .ok ⟨c.root, List.replicate c.layout.arity true⟩ r := by
  unfold create
  rw [bind_of_ok (opening_eq hopen)]
  rfl

include h

section Numbered

variable {k : Nat} {v : View} (hget : views[k]? = some v) (cat : Catalog)

include hget

/-- **A call narrows one view, and every other view stands for what it stood for.** -/
theorem lent_narrow (call : ViewCall) :
    let behind := ViewDeed.step (views, r) (.narrow k cat call)
    Lent r schema c (fun c' => List.Forall₂ (fun v x => View.StandsFor v c' x) behind.1
      (xs.modify k (call.replay cat schema c.layout))) behind.2 := by
  obtain ⟨x, hx, hv⟩ := exists_of_forall₂ h hget
  rw [ViewDeed.step]
  simp only [hget]
  by_cases hadmitted : call.Admitted cat schema c.layout x
  · obtain ⟨v', r', run, m, n, hr', hv'⟩ := call.ends_run hopen hv hc hadmitted
    rw [run]
    refine ⟨m, n, hr', forall₂_set_modify (h.imp fun _ _ hw => hw.next hc n) fun y hy => ?_⟩
    obtain rfl := Option.some.inj (hx.symm.trans hy)
    rwa [ViewCall.replay, if_pos hadmitted]
  · obtain ⟨e, run⟩ := call.run_error hopen hv hadmitted
    have hkept := forall₂_set_modify h (f := call.replay cat schema c.layout) fun y hy => by
      obtain rfl := Option.some.inj (hx.symm.trans hy)
      rwa [ViewCall.replay, if_neg hadmitted]
    have hself : views.set k v = views := by
      obtain ⟨hk, rfl⟩ := List.getElem?_eq_some_iff.mp hget
      exact List.set_getElem_self hk
    rw [run]
    exact lent_refl hopen hc (hself ▸ hkept)

/-- Testing a tuple leaves every view standing for what it stood for. -/
theorem lent_look (t : List Nat) :
    Lent r schema c (fun c' => List.Forall₂ (fun v x => View.StandsFor v c' x) views xs)
      (after (v.containsIndices cat t) r) := by
  obtain ⟨x, _, hv⟩ := exists_of_forall₂ h hget
  by_cases ht : List.Forall₂ (InSlot cat schema c.layout) x.slots t
  · obtain ⟨_, r', run, m, n, hr', _⟩ := hv.ends_containsIndices hopen hc ht
    rw [after, run]
    exact ⟨m, n, hr', h.imp fun _ _ hw => hw.next hc n⟩
  · obtain ⟨e, run⟩ := hv.containsIndices_error hopen ht
    rw [after, run]
    exact lent_refl hopen hc h

end Numbered

/-- **A deed does to the views what it does to their excerpts.** -/
theorem lent_step (deed : ViewDeed) : Lent r schema c
    (fun c' => List.Forall₂ (fun v x => View.StandsFor v c' x) (deed.step (views, r)).1
      (deed.effect schema c.layout c.tuples xs)) (deed.step (views, r)).2 := by
  cases deed with
  | create =>
      rw [ViewDeed.step, View.create_eq hopen]
      exact lent_refl hopen hc (List.rel_append h (.cons (View.standsFor_whole hc) .nil))
  | narrow k cat call =>
      rw [ViewDeed.effect]
      cases hget : views[k]? with
      | none =>
          rw [List.modify_eq_self (h.length_eq ▸ List.getElem?_eq_none_iff.mp hget), ViewDeed.step]
          simp only [hget]
          exact lent_refl hopen hc h
      | some v => exact lent_narrow hopen hc h hget cat call
  | look k cat t =>
      rw [ViewDeed.effect, ViewDeed.step]
      cases hget : views[k]? with
      | none => exact lent_refl hopen hc h
      | some v => exact lent_look hopen hc h hget cat t

/-- **A run of deeds does to the views what it does to their excerpts.** -/
theorem lent_foldl (deeds : List ViewDeed) : Lent r schema c
    (fun c' => List.Forall₂ (fun v x => View.StandsFor v c' x)
      (deeds.foldl ViewDeed.step (views, r)).1
      (deeds.foldl (ViewDeed.effect schema c.layout c.tuples) xs))
    (deeds.foldl ViewDeed.step (views, r)).2 := by
  induction deeds generalizing r c views xs with
  | nil => exact lent_refl hopen hc h
  | cons deed deeds ih =>
      refine (lent_step hopen hc h deed).bind fun m n hopen' h' => ?_
      have hrest := ih hopen' (hc.next n (n.holds hc.root)) h'
      rwa [hc.tuples_next n] at hrest

end Runs

/-! ## 4. Main result -/

/-- **Views compute selections and projections.** Whatever is done in whatever order with views of
an open relation that is reached, the relation is as it was, but for the space that it has lent, and
every view shows the excerpt that comes of the calls on it alone: of the tuples of the relation, by
the same selections and projections in that order, those that are refused left out. -/
theorem reached_views {r : Relation} (h : Reached r) {schema : Schema} {c : Contents}
    (hopen : r.stage = .opened schema c) (deeds : List ViewDeed) :
    (∃ m, (perform deeds r).2 = r.withContents schema { c with manager := m } ∧
      Contents.tuples { c with manager := m } = c.tuples) ∧
    List.Forall₂ (fun v x => View.Shows v (perform deeds r).2 schema c.layout x)
      (perform deeds r).1 (excerpts schema c deeds) := by
  have hc := h.contents hopen
  obtain ⟨m, n, hr', hviews⟩ := lent_foldl hopen hc .nil deeds
  have hopen' : (perform deeds r).2.stage = .opened schema { c with manager := m } :=
    congrArg stage hr'
  exact ⟨⟨m, hr', hc.tuples_next n⟩,
    hviews.imp fun v x hv => hv.shows hopen' (hc.next n (n.holds hc.root))⟩

/-- Of two views of a relation with two tuples, one loses the slot in which they differ and keeps
one tuple, also where it is to lose the slot again, and the other is left with none. -/
theorem reached_views_pair : ∃ cat r schema c, Reached r ∧ r.stage = .opened schema c ∧
    c.tuples = {[0, 1], [1, 1]} ∧ ∃ v w r', perform [.create, .create, .narrow 0 cat (.delete 0),
      .narrow 0 cat (.delete 0), .narrow 1 cat (.selectIndex 1 0)] r = ([v, w], r') ∧
    v.slots = [1] ∧ v.size r' = .ok 1 r' ∧ w.slots = [0, 1] ∧ w.isEmpty r' = .ok true r' := by
  let cat : Catalog := ⟨#[.words ⟨"V", fun n => s!"{n}", ⟨#[7, 9], ∅⟩⟩]⟩
  let schema : Schema := ⟨"own", ⟨["V0", "V1"], none, [[0], [1]]⟩, [0, 0]⟩
  obtain ⟨r, c, hr, hopen, _, htuples⟩ := exists_holding cat schema false rfl
    ⟨["V0", "V1"], none, rfl⟩ rfl rfl (by decide) [[0, 1], [1, 1]] (by decide)
  let deeds : List ViewDeed := [.create, .create, .narrow 0 cat (.delete 0),
    .narrow 0 cat (.delete 0), .narrow 1 cat (.selectIndex 1 0)]
  have harity : c.layout.arity = 2 := (hr.contents hopen).arity_eq
  have hset : c.tuples = {[0, 1], [1, 1]} := by
    rw [htuples]
    ext t
    simp
  have hdeleted : Excerpt.delete ⟨[0, 1], c.tuples⟩ 0 = ⟨[1], {[1]}⟩ := by
    rw [Excerpt.delete, hset, Set.image_pair]
    exact congrArg (Excerpt.mk [1]) (Set.pair_eq_singleton [1])
  have hselected : Excerpt.select ⟨[0, 1], c.tuples⟩ 1 0 = ⟨[0, 1], ∅⟩ := by
    rw [Excerpt.select, hset]
    refine congrArg (Excerpt.mk [0, 1]) (Set.eq_empty_of_forall_notMem ?_)
    rintro t ⟨rfl | rfl, hindex⟩ <;> exact absurd hindex (by decide)
  have hexcerpts : excerpts schema c deeds = [⟨[1], {[1]}⟩, ⟨[0, 1], ∅⟩] := by
    have hzero : InSlot cat schema c.layout 1 0 := ⟨by decide, Nat.two_pow_pos _⟩
    have hfirst : ViewCall.replay cat schema c.layout (.delete 0) ⟨[0, 1], c.tuples⟩ =
        ⟨[1], {[1]}⟩ := (if_pos (show 0 ∈ [0, 1] by decide)).trans hdeleted
    have hagain : ViewCall.replay cat schema c.layout (.delete 0) ⟨[1], {[1]}⟩ = ⟨[1], {[1]}⟩ :=
      if_neg (show 0 ∉ [1] by decide)
    have hother : ViewCall.replay cat schema c.layout (.selectIndex 1 0) ⟨[0, 1], c.tuples⟩ =
        ⟨[0, 1], ∅⟩ := (if_pos ⟨show 1 ∈ [0, 1] by decide, hzero⟩).trans hselected
    show [ViewCall.replay cat schema c.layout (.delete 0) (ViewCall.replay cat schema c.layout
      (.delete 0) ⟨List.range c.layout.arity, c.tuples⟩), ViewCall.replay cat schema c.layout
      (.selectIndex 1 0) ⟨List.range c.layout.arity, c.tuples⟩] = _
    rw [harity, show List.range 2 = [0, 1] from rfl, hfirst, hagain, hother]
  obtain ⟨_, hviews⟩ := reached_views hr hopen deeds
  rw [hexcerpts] at hviews
  generalize hperform : perform deeds r = behind at hviews
  obtain ⟨views, r'⟩ := behind
  obtain ⟨v, _, hv, hrest, rfl⟩ := List.forall₂_cons_right_iff.mp hviews
  obtain ⟨w, _, hw, hnone, rfl⟩ := List.forall₂_cons_right_iff.mp hrest
  obtain rfl := List.forall₂_nil_right_iff.mp hnone
  obtain ⟨S, hS, _, _, hsize⟩ := hv.counted
  obtain ⟨T, hT, hempty, _⟩ := hw.counted
  obtain rfl : S = {[1]} := Finset.coe_injective (hS.symm.trans (Finset.coe_singleton [1]).symm)
  obtain rfl : T = ∅ := Finset.coe_injective (hT.symm.trans Finset.coe_empty.symm)
  exact ⟨cat, r, schema, c, hr, hopen, hset, v, w, r', hperform, hv.slots, hsize, hw.slots, hempty⟩

end Factbase.Relation
