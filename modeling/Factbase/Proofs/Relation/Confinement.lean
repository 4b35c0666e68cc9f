import Factbase.Proofs.Relation.Decoding
import Factbase.Proofs.Relation.Filling

/-!
# Tuples stay inside their domains

Domains only grow, and relations are opened with tuples of their domains. What is done with an open
relation keeps its tuples below the present sizes of its domains, a union with a relation over
larger domains apart: only the names of the domains and the widths of the slots are compared.

* `Catalog.Grown`: every domain has at least as many values;
* `Confined`: every tuple of an open relation is inside its domains as they are;
* `Keeping`, `Keeping.confined`: **every operation keeps the tuples inside**, a union where the
  other relation's domains are not larger;
* `Kept`, `kept_inside`: so do whole histories, and **all tuples then come as values and are
  printed**;
* `exists_unconfined`: a union over a larger domain of the same name leaves the domain.
-/

namespace Factbase

/-! ## 1. Growing domains -/

/-- A value that is added to a numbering does not make it smaller. -/
theorem Numbering.size_le_add {α : Type} [BEq α] [Hashable α] (n : Numbering α) (v : α) :
    n.size ≤ (n.add v).2.size := by
  unfold add
  split
  · exact Nat.le_refl _
  · exact (Nat.le_succ _).trans_eq (Array.size_push v).symm

theorem Universe.size_le_add (u : Universe) (v : Value) : u.size ≤ (u.add v).2.size := by
  cases u <;> cases v <;> first | exact Numbering.size_le_add _ _ | exact Nat.le_refl _

namespace Catalog

/-- Every domain has at least as many values. -/
def Grown (cat cat' : Catalog) : Prop :=
  ∀ handle, (cat.domain handle).size ≤ (cat'.domain handle).size

/-- **A value that is added lets the domains grow.** -/
theorem grown_add (cat : Catalog) (handle : Nat) (v : Value) : cat.Grown (cat.add handle v).2 := by
  intro handle'
  unfold add domain
  dsimp only
  rw [Array.getElem?_setIfInBounds]
  split
  · rename_i heq
    rw [Array.size_setIfInBounds]
    split
    · rw [heq]
      exact Universe.size_le_add _ v
    · rename_i hout
      exact Nat.le_of_eq (by rw [Array.getElem?_eq_none (show cat.universes.size ≤ _ by omega)])
  · rename_i hne
    exact Nat.le_of_eq (by rw [Array.getElem?_setIfInBounds_ne hne])

/-- A domain that is entered takes no other one's place. -/
theorem grown_enter (cat : Catalog) (u : Universe) : cat.Grown (cat.enter u).2 := by
  intro handle
  unfold enter domain
  dsimp only
  rw [Array.getElem?_push]
  split
  · rename_i heq
    rw [heq, Array.getElem?_eq_none (Nat.le_refl _)]
    exact Nat.zero_le _
  · exact Nat.le_refl _

end Catalog

namespace Relation

open Diagram

/-! ## 2. The property -/

/-- Every tuple of an open relation is inside its domains as they are. -/
def Confined (cat : Catalog) (r : Relation) : Prop :=
  ∀ schema c, r.stage = .opened schema c → ∀ t ∈ c.tuples, schema.Inside cat t

theorem confined_iff {cat : Catalog} {r : Relation} {schema : Schema} {c : Contents}
    (hopen : r.stage = .opened schema c) :
    Confined cat r ↔ ∀ t ∈ c.tuples, schema.Inside cat t := by
  refine ⟨fun h => h schema c hopen, fun h schema' c' hopen' => ?_⟩
  obtain ⟨rfl, rfl⟩ := Stage.opened.inj (hopen.symm.trans hopen')
  exact h

/-- Slot by slot, the domain has at least the size of the other relation's. -/
def Schema.Covers (cat : Catalog) (schema other : Schema) : Prop :=
  ∀ slot, (other.domain cat slot).size ≤ (schema.domain cat slot).size

section Domains

variable {cat cat' : Catalog} {schema other : Schema} {t : List Nat}

theorem Schema.Inside.covered (h : other.Inside cat t) (hcovers : schema.Covers cat other) :
    schema.Inside cat t := fun slot index hindex =>
  Nat.lt_of_lt_of_le (h slot index hindex) (hcovers slot)

theorem Schema.Inside.grown (h : schema.Inside cat t) (hgrown : cat.Grown cat') :
    schema.Inside cat' t := fun slot index hindex => by
  refine Nat.lt_of_lt_of_le (h slot index hindex) ?_
  unfold Schema.domain
  cases schema.domains[slot]? with
  | none => exact Nat.le_refl _
  | some handle => exact hgrown handle

/-- **Where domains grow, tuples stay inside.** -/
theorem Confined.grown {r : Relation} (h : Confined cat r) (hgrown : cat.Grown cat') :
    Confined cat' r := fun schema c hopen t ht => (h schema c hopen t ht).grown hgrown

end Domains

/-! ## 3. Opening -/

section Opening

variable {cat : Catalog} {env : Environment} {r : Relation} (h : Confined cat r)

omit h in
/-- Contents that were just created, with a diagram that is true on tuples of the domains only. -/
theorem confined_withContents {schema : Schema} {l : Layout} {m : Manager} {root : Edge}
    (hsizes : l.sizes = schema.sizes cat)
    (hin : ∀ ρ, m.eval ρ root = true → l.Inside (l.read ρ)) :
    Confined cat (r.withContents schema ⟨m, root, l⟩) := by
  refine (confined_iff rfl).mpr ?_
  rintro t ⟨ρ, rfl, htrue⟩
  exact (inside_iff hsizes).mp (hin ρ htrue)

include h

theorem confined_openAs {act : Layout → Op Edge}
    (hact : ∀ l m, m.WellFormed → l.Sound m → Manager.Proceeds (act l) m fun e m' =>
      ∀ ρ, m'.eval ρ e = true → l.Inside (l.read ρ)) :
    Confined cat (after (openAs cat env act) r) := by
  unfold after
  cases hp : r.prepare cat env with
  | error fault =>
      simp only [openAs, hp]
      exact h
  | ok p =>
      obtain ⟨_, hm, hl, hsizes⟩ := sound_prepare hp
      obtain ⟨schema, warnings, manager, layout⟩ := p
      cases run : act layout manager with
      | error fault m =>
          simp only [openAs, hp, run]
          exact h
      | ok root m =>
          simp only [openAs, hp, run]
          exact confined_withContents hsizes ((hact layout manager hm hl).of_ok run).2

theorem confined_one (env : Environment) : Confined cat (after (one cat env) r) :=
  confined_openAs h fun _ _ hm hl => Manager.proceeds_of_ends <|
    (hl.makes_inDomains hm).mono fun _ _ ⟨n, _, hval⟩ => ⟨n, fun ρ htrue =>
      Layout.all_range_iff.mp ((hval ρ).symm.trans htrue)⟩

theorem confined_zero (env : Environment) : Confined cat (after (zero cat env) r) :=
  confined_openAs h fun _ _ hm _ => Manager.proceeds_pure hm fun ρ htrue => by
    rw [Manager.eval_zero] at htrue
    cases htrue

/-- **A file brings in tuples of the domains only**, whatever it has. -/
theorem confined_load (env : Environment) (files : Files) (folder : Path) :
    Confined cat (after (load cat env files folder) r) := by
  unfold after
  cases hp : r.prepare cat env with
  | error fault =>
      simp only [load, hp]
      exact h
  | ok p =>
      obtain ⟨_, hm, hl, hsizes⟩ := sound_prepare hp
      obtain ⟨schema, warnings, manager, layout⟩ := p
      simp only [load, hp]
      cases files.read? (folder.join (diagramFile schema.name)) with
      | error error => exact h
      | ok data =>
      dsimp only
      cases Header.read schema.signature.names (layout.slots.map List.length)
        (Text.byteLines data) with
      | error error => cases error <;> exact h
      | ok parts =>
      obtain ⟨fileVars, bodyLines⟩ := parts
      dsimp only
      cases run : readContents layout (fit layout fileVars) bodyLines manager with
      | error fault m => exact h
      | ok result m =>
      cases result with
      | error error => exact h
      | ok parts =>
      have hread := ((ends_readContents hl hm fileVars bodyLines).of_ok run).2 parts rfl
      exact confined_withContents hsizes hread.2

end Opening

/-! ## 4. Single tuples -/

/-- A relation is open, or it has no parts. -/
theorem opened_or (r : Relation) : (∃ schema c, r.stage = .opened schema c) ∨
    opening r = .error (.fault (.notOpen r.name r.state)) r := by
  cases hstage : r.stage with
  | opened schema c => exact Or.inl ⟨schema, c, rfl⟩
  | _ => exact Or.inr (by simp only [opening, hstage])

/-- Where a tuple comes from that is added or removed: it is refused, or it is valid. -/
def Sources (cat : Catalog) (source : RelationM (List Nat)) (r : Relation) : Prop :=
  (∃ e, source r = .error e r) ∨ ∃ schema c t, r.stage = .opened schema c ∧
    Valid cat schema c.layout t ∧ source r = .ok t r

section Editing

variable {cat : Catalog} {r : Relation}

theorem sources_checked (t : List Nat) : Sources cat (checked cat t) r := by
  rcases r.opened_or with ⟨schema, c, hopen⟩ | hclosed
  · by_cases hv : Valid cat schema c.layout t
    · exact Or.inr ⟨schema, c, t, hopen, hv, checked_eq hopen hv⟩
    · obtain ⟨problem, _, hrefused⟩ := checked_error hopen hv
      exact Or.inl ⟨_, hrefused⟩
  · exact Or.inl ⟨_, bind_eq_error hclosed⟩

theorem sources_resolved (values : List Value) : Sources cat (resolved cat values) r := by
  rcases r.opened_or with ⟨schema, c, hopen⟩ | hclosed
  · have hrun : resolved cat values r = orProblem (resolveTuple cat schema c.layout values) r :=
      bind_of_ok (opening_eq hopen)
    cases hresolve : resolveTuple cat schema c.layout values with
    | error problem =>
        rw [hresolve] at hrun
        exact Or.inl ⟨_, hrun⟩
    | ok t =>
        rw [hresolve] at hrun
        obtain ⟨_, _, hrest⟩ := ok_of_bind hresolve
        obtain ⟨_, _, hcheck⟩ := ok_of_bind hrest
        obtain ⟨hvalid, rfl⟩ := valid_of_checkTuple hcheck
        exact Or.inr ⟨schema, c, t, hopen, hvalid, hrun⟩
  · exact Or.inl ⟨_, bind_eq_error hclosed⟩

variable (h : Confined cat r)

include h

/-- A program that is refused, or that leaves other tuples, which are all inside. -/
theorem confined_after {program : RelationM Unit} (hcases : (∃ e, program r = .error e r) ∨
    ∃ schema c S, Ends program r (fun _ r' => Retupled r schema c S r') ∧
      ∀ t ∈ S, schema.Inside cat t) : Confined cat (after program r) := by
  unfold after
  rcases hcases with ⟨e, hrefused⟩ | ⟨schema, c, S, hends, hin⟩
  · rw [hrefused]
    exact h
  · obtain ⟨_, _, run, c', rfl, _, _, rfl⟩ := hends
    rw [run]
    exact (confined_iff rfl).mpr hin

/-- **A valid tuple may be added, and any may be removed.** -/
theorem confined_edit (hr : r.Sound) {source : RelationM (List Nat)}
    {edit : List Nat → RelationM Unit} (hsource : Sources cat source r)
    {S : Contents → List Nat → Set (List Nat)} (hS : ∀ c t, S c t ⊆ insert t c.tuples)
    (hedit : ∀ {schema c t}, r.stage = .opened schema c → c.Sound schema → c.layout.Fits t →
      Ends (edit t) r fun _ r' => Retupled r schema c (S c t) r') :
    Confined cat (after (source >>= edit) r) := by
  rcases hsource with ⟨e, hrefused⟩ | ⟨schema, c, t, hopen, hvalid, hpassed⟩
  · exact confined_after h (Or.inl ⟨e, bind_eq_error hrefused⟩)
  · refine confined_after h (Or.inr ⟨schema, c, S c t,
      ends_bind hpassed (hedit hopen (hr.contents hopen).2 hvalid.fits), fun t' ht' => ?_⟩)
    rcases hS c t ht' with rfl | ht'
    · exact hvalid.inDomain
    · exact h schema c hopen t' ht'

end Editing

/-! ## 5. Combinations -/

section Combinations

variable {cat : Catalog} {r other : Relation} (hr : r.Sound) (hother : other.Sound)

include hr hother

/-- Another relation's diagram is refused, or the relations are compatible. -/
theorem importFrom_cases : (∃ e, importFrom cat other r = .error e r) ∨
    ∃ schema c otherSchema d, r.stage = .opened schema c ∧ other.stage = .opened otherSchema d ∧
      c.Sound schema ∧ d.Sound otherSchema ∧
        Compatible cat (schema, c.layout) (otherSchema, d.layout) := by
  rcases r.opened_or with ⟨schema, c, hopen⟩ | hclosed
  · cases hopen' : other.stage with
    | opened otherSchema d =>
        have hc := (hr.contents hopen).2
        have hd := (hother.contents hopen').2
        cases hmismatch : mismatch? cat (schema, c.layout) (otherSchema, d.layout) with
        | some found => exact Or.inl ⟨_, importFrom_eq_error hopen hopen' hmismatch⟩
        | none =>
            exact Or.inr ⟨schema, c, otherSchema, d, hopen, rfl, hc, hd,
              (mismatch?_eq_none_iff hc hd).mp hmismatch⟩
    | _ =>
        refine Or.inl ⟨.fault (.notOpen other.name other.state), ?_⟩
        unfold importFrom
        rw [bind_of_ok (opening_eq hopen)]
        simp only [openContents, hopen']
        rfl
  · exact Or.inl ⟨_, bind_eq_error hclosed⟩

variable (h : Confined cat r)
  (haddr : ∀ schema d, other.stage = .opened schema d → d.manager.Addressable)

include h haddr

/-- **A combination keeps to the domains where its tuples do.** -/
theorem confined_combined {act : Edge → Edge → Op Edge} {S : Contents → Contents → Set (List Nat)}
    (hS : ∀ {schema c otherSchema d}, r.stage = .opened schema c →
      other.stage = .opened otherSchema d → ∀ t ∈ S c d, schema.Inside cat t)
    (hends : ∀ {schema c otherSchema d}, r.stage = .opened schema c →
      other.stage = .opened otherSchema d → c.Sound schema → d.Sound otherSchema →
      Compatible cat (schema, c.layout) (otherSchema, d.layout) → d.manager.Addressable →
      Ends (do let f ← importFrom cat other; update fun root _ => act root f : RelationM Unit) r
        fun _ r' => Retupled r schema c (S c d) r') :
    Confined cat (after (do
      let f ← importFrom cat other
      update fun root _ => act root f : RelationM Unit) r) := by
  rcases @importFrom_cases cat r other hr hother with
    ⟨e, hrefused⟩ | ⟨schema, c, otherSchema, d, hopen, hopen', hc, hd, hcompatible⟩
  · exact confined_after h (Or.inl ⟨e, bind_eq_error hrefused⟩)
  · exact confined_after h (Or.inr ⟨schema, c, S c d,
      hends hopen hopen' hc hd hcompatible (haddr _ d hopen'), hS hopen hopen'⟩)

theorem confined_unionWith (hin : Confined cat other)
    (hcovers : ∀ schema c otherSchema d, r.stage = .opened schema c →
      other.stage = .opened otherSchema d → schema.Covers cat otherSchema) :
    Confined cat (after (unionWith cat other) r) :=
  confined_combined hr hother h haddr
    (fun hopen hopen' t ht => ht.elim (h _ _ hopen t) fun ht =>
      (hin _ _ hopen' t ht).covered (hcovers _ _ _ _ hopen hopen'))
    fun hopen hopen' hc hd hcompatible hsmall =>
      ends_unionWith hopen hopen' hc hd hcompatible hsmall

theorem confined_intersectWith : Confined cat (after (intersectWith cat other) r) :=
  confined_combined hr hother h haddr (fun hopen _ t ht => h _ _ hopen t ht.1)
    fun hopen hopen' hc hd hcompatible hsmall =>
      ends_intersectWith hopen hopen' hc hd hcompatible hsmall

theorem confined_subtract : Confined cat (after (subtract cat other) r) :=
  confined_combined hr hother h haddr (fun hopen _ t ht => h _ _ hopen t ht.1)
    fun hopen hopen' hc hd hcompatible hsmall =>
      ends_subtract hopen hopen' hc hd hcompatible hsmall

end Combinations

/-! ## 6. Histories -/

/-- Another relation to combine with: it is reached, and its edges are codes of 32 bits. -/
structure Partner (other : Relation) : Prop where
  reached : Reached other
  small : ∀ schema d, other.stage = .opened schema d → d.manager.Addressable

/-- What may be done with a relation over the present domains so that its tuples stay inside. A
union is one with a relation whose tuples are inside its own domains, which are not larger. -/
inductive Keeping (cat : Catalog) (r : Relation) : {α : Type} → RelationM α → Prop
  | one (env : Environment) : Keeping cat r (one cat env)
  | zero (env : Environment) : Keeping cat r (zero cat env)
  | load (env : Environment) (files : Files) (folder : Path) :
      Keeping cat r (load cat env files folder)
  | addIndices (indices : List Nat) : Keeping cat r (addIndices cat indices)
  | removeIndices (indices : List Nat) : Keeping cat r (removeIndices cat indices)
  | add (values : List Value) : Keeping cat r (add cat values)
  | remove (values : List Value) : Keeping cat r (remove cat values)
  | unionWith {other : Relation} (hother : Partner other) (hin : Confined cat other)
      (hcovers : ∀ schema c otherSchema d, r.stage = .opened schema c →
        other.stage = .opened otherSchema d → schema.Covers cat otherSchema) :
      Keeping cat r (unionWith cat other)
  | intersectWith {other : Relation} (hother : Partner other) :
      Keeping cat r (intersectWith cat other)
  | subtract {other : Relation} (hother : Partner other) : Keeping cat r (subtract cat other)

/-- **The relations whose tuples are kept inside**: over domains that grow, from relations on that
are not open yet. -/
inductive Kept : Catalog → Relation → Prop
  | start {cat : Catalog} {r : Relation} (h : Reached r)
      (hopen : ∀ schema c, r.stage ≠ .opened schema c) : Kept cat r
  | grow {cat cat' : Catalog} {r : Relation} (h : Kept cat r) (hgrown : cat.Grown cat') :
      Kept cat' r
  | act {cat : Catalog} {r : Relation} {α : Type} {program : RelationM α} (h : Kept cat r)
      (ha : Keeping cat r program) : Kept cat (after program r)

section Histories

variable {cat : Catalog} {r : Relation}

theorem Keeping.action {α : Type} {program : RelationM α} (ha : Keeping cat r program) :
    Action r program := by
  cases ha with
  | one env => exact .one cat env
  | zero env => exact .zero cat env
  | load env files folder => exact .load cat env files folder
  | addIndices t => exact .addIndices cat t
  | removeIndices t => exact .removeIndices cat t
  | add values => exact .add cat values
  | remove values => exact .remove cat values
  | unionWith _ _ _ => exact .unionWith cat _
  | intersectWith _ => exact .intersectWith cat _
  | subtract _ => exact .subtract cat _

/-- **Every operation keeps the tuples inside.** -/
theorem Keeping.confined {α : Type} {program : RelationM α} (ha : Keeping cat r program)
    (hr : r.Sound) (h : Confined cat r) : Confined cat (after program r) := by
  have hinsert : ∀ (c : Contents) (t : List Nat), insert t c.tuples ⊆ insert t c.tuples :=
    fun _ _ => subset_rfl
  have hremove : ∀ (c : Contents) (t : List Nat), c.tuples \ {t} ⊆ insert t c.tuples :=
    fun _ _ => Set.sdiff_subset.trans (Set.subset_insert _ _)
  cases ha with
  | one env => exact confined_one h env
  | zero env => exact confined_zero h env
  | load env files folder => exact confined_load h env files folder
  | addIndices t =>
      exact confined_edit h hr (sources_checked t) hinsert
        fun ho hc ht => ends_addChecked ho hc ht
  | removeIndices t =>
      exact confined_edit h hr (sources_checked t) hremove
        fun ho hc ht => ends_removeChecked ho hc ht
  | add values =>
      exact confined_edit h hr (sources_resolved values) hinsert
        fun ho hc ht => ends_addChecked ho hc ht
  | remove values =>
      exact confined_edit h hr (sources_resolved values) hremove
        fun ho hc ht => ends_removeChecked ho hc ht
  | unionWith hother hin hcovers =>
      exact confined_unionWith hr hother.reached.sound h hother.small hin hcovers
  | intersectWith hother => exact confined_intersectWith hr hother.reached.sound h hother.small
  | subtract hother => exact confined_subtract hr hother.reached.sound h hother.small

theorem Kept.reached (h : Kept cat r) : Reached r := by
  induction h with
  | start h _ => exact h
  | grow _ _ ih => exact ih
  | act _ ha ih => exact ih.act ha.action

/-- **In whole histories the tuples are inside the domains.** -/
theorem Kept.confined (h : Kept cat r) : Confined cat r := by
  induction h with
  | start _ hopen => exact fun schema c hopened => absurd hopened (hopen schema c)
  | grow _ hgrown ih => exact ih.grown hgrown
  | act h ha ih => exact ha.confined h.reached.sound ih

/-- **Tuples stay inside their domains.** In every history that opens relations, lets domains grow,
adds, removes, intersects and subtracts tuples, and unites relations with ones over domains that are
not larger, every tuple of an open relation has indices below the present sizes of its domains. So
every tuple comes as values, and printing does not stop with a misuse. -/
theorem kept_inside (h : Kept cat r) {schema : Schema} {c : Contents}
    (hopen : r.stage = .opened schema c) :
    (∀ t ∈ c.tuples, schema.Inside cat t) ∧
    (∀ types limit, types.length = c.layout.arity → schema.HasTypes cat types →
      ∃ answers, values cat types limit r = .ok answers r ∧
        ∀ answer ∈ answers, ∃ vs, answer = .ok vs) ∧
    ∀ folder files fault s, print cat folder (r, files) ≠ .error (.fault fault) s := by
  have hc := h.reached.contents hopen
  have hin := h.confined schema c hopen
  refine ⟨hin, fun types limit harity htypes => ?_, fun folder files fault s hprint => ?_⟩
  · obtain ⟨answers, run, _, hanswers⟩ := values_of_inside hopen hc hin harity htypes limit
    exact ⟨answers, run, hanswers⟩
  · rcases print_of_inside hopen hc hin folder files with ⟨_, run⟩ | ⟨_, _, _, run⟩ <;>
      rw [run] at hprint <;> cases hprint

end Histories

/-- **A union leaves a domain for a larger one of the same name.** The widths of the slots do not
tell three values from four. -/
theorem exists_unconfined : ∃ cat r other r', Reached r ∧ Confined cat r ∧ Reached other ∧
    Confined cat other ∧ unionWith cat other r = .ok () r' ∧ ¬ Confined cat r' := by
  let domain (values : Array UInt32) : Universe := .words ⟨"M", fun n => s!"{n}", ⟨values, ∅⟩⟩
  let cat : Catalog := ⟨#[domain #[5, 6, 7], domain #[5, 6, 7, 8]]⟩
  let described (handle : Nat) : Schema := ⟨"own", ⟨["M0"], none, [[0]]⟩, [handle]⟩
  have hkinds : ∀ handle < 2, checkKinds "own" cat 0 [("M0", handle)] = .ok () := by
    intro handle hlt
    match handle with
    | 0 | 1 => rfl
  obtain ⟨r, c, hr, hopen, hfresh, htuples⟩ := exists_holding cat (described 0) false rfl
    ⟨["M0"], none, rfl⟩ rfl (hkinds 0 (by decide)) (by decide) [] (by decide)
  obtain ⟨other, d, hother, hopen', hfresh', htuples'⟩ := exists_holding cat (described 1) false rfl
    ⟨["M0"], none, rfl⟩ rfl (hkinds 1 (by decide)) (by decide) [[3]] (by decide)
  have hc := hr.contents hopen
  have hd := hother.contents hopen'
  have hcompatible : Compatible cat (described 0, c.layout) (described 1, d.layout) := by
    refine ⟨rfl, ?_⟩
    rw [hc.layout.widths, hd.layout.widths, hfresh, hfresh']
    decide +kernel
  have hsmall : d.manager.Addressable :=
    addressable_of_sizes hd (by rw [hfresh']; decide +kernel)
  obtain ⟨_, _, run, c', rfl, _, _, hunited⟩ :=
    ends_unionWith hopen hopen' hc hd hcompatible hsmall
  refine ⟨cat, r, other, _, hr, (confined_iff hopen).mpr fun t ht => ?_, hother,
    (confined_iff hopen').mpr fun t ht => ?_, run, fun h => ?_⟩
  · rw [htuples] at ht
    exact absurd ht List.not_mem_nil
  · rw [htuples'] at ht
    obtain rfl := List.mem_singleton.mp ht
    exact Schema.inside_of_sizes (by decide)
  · have hmem : [3] ∈ c'.tuples := by
      rw [hunited, htuples']
      exact Or.inr (List.mem_singleton_self _)
    exact absurd ((confined_iff rfl).mp h [3] hmem 0 3 rfl) (by decide)

end Relation

end Factbase
