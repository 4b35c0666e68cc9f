import Factbase.Proofs.Relation.Lifetimes
import Factbase.Proofs.Relation.Opening

/-!
# Directions of bits

On opening, the bits of a relation are placed in levels, group by group, in the direction that its
configuration asks for. They stay there.

* `Levelled`: the bits of an open relation stand in the levels that are arranged for them;
* `Opening`, `OpenedWith`: the relations that were opened with a given direction of the bits, and
  whatever was done with them since;
* `OpenedWith.levelled`: **nothing that is done with an open relation moves its levels.**
-/

namespace Factbase.Relation

open Diagram

/-! ## 1. Levels -/

/-- The relation is open, with its bits in the levels that are arranged for its groups in the given
direction, or it was open and is closed. -/
def Levelled (reverse : Bool) (r : Relation) : Prop :=
  r.Sound ∧ match r.stage with
    | .opened schema c => Order.ofList c.manager.numVars
        (Layout.arrange c.layout.slots reverse schema.signature.groups) = .ok c.manager.order
    | .closed _ => True
    | _ => False

section Levelled

variable {reverse : Bool} {r : Relation}

theorem Levelled.ofList_eq (h : Levelled reverse r) {schema : Schema} {c : Contents}
    (hopen : r.stage = .opened schema c) : Order.ofList c.manager.numVars
      (Layout.arrange c.layout.slots reverse schema.signature.groups) = .ok c.manager.order := by
  have hlevels := h.2
  rwa [hopen] at hlevels

/-- Neither growing managers nor other diagrams move the levels. -/
theorem editable_levelled (reverse : Bool) : Editable (Levelled reverse) where
  sound h := h.1
  grown h hopen n := by
    refine ⟨editable_sound.grown h.1 hopen n, ?_⟩
    show Order.ofList _ _ = .ok _
    rw [n.numVars_eq, n.2.order]
    exact h.ofList_eq hopen
  rerooted h hopen hroot := by
    have hlevels := h.ofList_eq hopen
    exact ⟨editable_sound.rerooted h.1 hopen hroot, hlevels⟩

theorem Levelled.upholds_close (h : Levelled reverse r) :
    Upholds (Levelled reverse) close r fun _ _ => True := by
  obtain ⟨config, stage⟩ := r
  cases stage with
  | opened schema c => exact upholds_of_ok rfl ⟨h.1.1, trivial⟩ trivial
  | _ => exact upholds_of_error rfl h

/-- A relation that was opened is neither described nor opened again. -/
theorem Levelled.upholds_transition (h : Levelled reverse r) {α : Type} {program : RelationM α}
    (ht : Transition program) : Upholds (Levelled reverse) program r fun _ _ => True := by
  have hclose := h.upholds_close
  obtain ⟨config, stage⟩ := r
  cases stage with
  | opened schema c =>
      cases ht with
      | close => exact hclose
      | _ => exact upholds_of_error rfl h
  | closed schema =>
      cases ht with
      | close => exact hclose
      | _ => exact upholds_of_error rfl h
  | _ => exact h.2.elim

end Levelled

/-! ## 2. Opening -/

/-- The direction in which the bits of a relation are placed where it is opened. -/
def direction (env : Environment) (r : Relation) : Bool :=
  (Config.chosen env r.config).value.reverseOrder

/-- What opens a relation. -/
inductive Opening (env : Environment) : {α : Type} → RelationM α → Prop
  | one (cat : Catalog) : Opening env (one cat env)
  | zero (cat : Catalog) : Opening env (zero cat env)
  | load (cat : Catalog) (files : Files) (folder : Path) : Opening env (load cat env files folder)

section Opening

variable {env : Environment} {r : Relation}

/-- **A relation that is prepared for opening has its bits in the levels arranged for them.** -/
theorem order_prepare {cat : Catalog} {p : Prepared} (run : r.prepare cat env = .ok p) :
    Order.ofList p.manager.numVars
      (Layout.arrange p.layout.slots (r.direction env) p.schema.signature.groups) =
        .ok p.manager.order := by
  obtain ⟨config, stage⟩ := r
  unfold prepare at run
  cases stage with
  | bound schema =>
      cases config <;>
      · obtain ⟨manager, hmanager, run⟩ := ok_of_bind run
        obtain ⟨hm, hnodes, horder⟩ := Manager.wellFormed_create hmanager
        have hvars : manager.numVars = 0 := by rw [Manager.numVars, horder]; rfl
        dsimp only at run
        split at run
        · rename_i layout m hcreate
          obtain rfl := Except.ok.inj run
          exact (Layout.sound_create hm hnodes hvars hcreate).2.2.2
        · cases run
  | _ => cases run

/-- A relation over a prepared layout has its bits in the levels of that layout. -/
theorem levelled_withContents {cat : Catalog} {p : Prepared} (run : r.prepare cat env = .ok p)
    {m : Manager} (n : p.manager.Next m) {root : Edge}
    (h : (r.withContents p.schema ⟨m, root, p.layout⟩).Sound) :
    Levelled (r.direction env) (r.withContents p.schema ⟨m, root, p.layout⟩) := by
  refine ⟨h, ?_⟩
  show Order.ofList _ _ = .ok _
  rw [n.numVars_eq, n.2.order]
  exact order_prepare run

/-- **Whatever opens a relation places its bits.** -/
theorem Opening.levelled (h : r.Sound) (hbound : r.state = .bound) {α : Type}
    {program : RelationM α} (ho : Opening env program)
    (hopen : (after program r).state = .opened) :
    Levelled (r.direction env) (after program r) := by
  -- a relation that stays as it was is not open
  have hclosed : after program r ≠ r := fun same => by
    rw [same, hbound] at hopen
    cases hopen
  have hopenAs : ∀ (cat : Catalog) (act : Layout → Op Edge),
      (∀ l m, m.WellFormed → l.Sound m → Manager.Proceeds (act l) m fun e m' => m'.Holds e) →
      after (openAs cat env act) r ≠ r →
      Levelled (r.direction env) (after (openAs cat env act) r) := by
    intro cat act hact hne
    have hsound : (after (openAs cat env act) r).Sound := (upholds_openAs h hact).after
    rcases openAs_outcome (r := r) cat env act with ⟨_, run⟩ | ⟨p, root, m, hp, hmade, run⟩
    · rw [after, run] at hne
      exact absurd rfl hne
    · obtain ⟨_, hm, hl, _⟩ := sound_prepare hp
      rw [after, run] at hsound ⊢
      exact levelled_withContents hp ((hact _ _ hm hl).of_ok hmade).1 hsound
  cases ho with
  | one cat =>
      exact hopenAs cat _ (fun _ _ hm hl => (hl.makes_inDomains hm).proceeds) hclosed
  | zero cat =>
      exact hopenAs cat _ (fun _ _ hm _ => Manager.proceeds_pure hm hm.holds_zero) hclosed
  | load cat files folder =>
      have hsound := (upholds_load h cat env files folder).after
      rcases load_outcome (r := r) cat env files folder with ⟨_, run⟩ | ⟨_, _, run⟩ |
        ⟨p, fileVars, lines, root, dropped, m, _, hp, hcontents, run⟩
      · rw [after, run] at hclosed
        exact absurd rfl hclosed
      · rw [after, run] at hclosed
        exact absurd rfl hclosed
      · obtain ⟨_, hm, hl, _⟩ := sound_prepare hp
        rw [after, run] at hsound ⊢
        exact levelled_withContents hp ((ends_readContents hl hm fileVars lines).of_ok hcontents).1
          hsound

end Opening

/-! ## 3. Lifetimes -/

/-- **The relations that were opened with a direction of their bits**: a described relation that is
reached is opened, and then whatever is done with it is done. -/
inductive OpenedWith (reverse : Bool) : Relation → Prop
  | opened {r : Relation} (h : Reached r) (hbound : r.state = .bound) {env : Environment}
      (hreverse : r.direction env = reverse) {α : Type} {program : RelationM α}
      (ho : Opening env program) (hopen : (after program r).state = .opened) :
      OpenedWith reverse (after program r)
  | act {r : Relation} (h : OpenedWith reverse r) {α : Type} {program : RelationM α}
      (ha : Action r program) : OpenedWith reverse (after program r)
  | store {r : Relation} (h : OpenedWith reverse r) (files : Files) {α : Type}
      {program : StorageM α} (ha : Storing program) :
      OpenedWith reverse (after program (r, files)).1

theorem Opening.action {env : Environment} {α : Type} {program : RelationM α}
    (ho : Opening env program) (r : Relation) : Action r program := by
  cases ho with
  | one cat => exact .one cat env
  | zero cat => exact .zero cat env
  | load cat files folder => exact .load cat env files folder

theorem OpenedWith.reached {reverse : Bool} {r : Relation} (h : OpenedWith reverse r) :
    Reached r := by
  induction h with
  | opened h _ _ ho _ => exact h.act (ho.action _)
  | act _ ha ih => exact ih.act ha
  | store _ files ha ih => exact ih.store files ha

/-- **Nothing that is done with an open relation moves its levels.** -/
theorem OpenedWith.levelled {reverse : Bool} {r : Relation} (h : OpenedWith reverse r) :
    Levelled reverse r := by
  induction h with
  | opened h hbound hreverse ho hopen => exact hreverse ▸ ho.levelled h.sound hbound hopen
  | act _ ha ih =>
      exact ((ha.transition_or_upholds (editable_levelled reverse) ih).elim
        (ih.upholds_transition ·) id).after
  | store _ files ha ih =>
      exact (ha.upholds (editable_levelled reverse).toLasting ih (·.upholds_close) files).after

end Factbase.Relation
