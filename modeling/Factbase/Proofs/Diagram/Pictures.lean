import Factbase.Proofs.Diagram.DotTexts
import Factbase.Proofs.Diagram.Sweeping

/-!
# What a drawing shows

A drawing is read from its statements: the declarations and their blocks, the arrows, the markers of
the roots.

* `declarations`, `blocks`, `highs`, `lows`, `markers`, `pointers`: what the statements say;
* `Reads g ρ id b`: following the arrows from a decision or a leaf gives a value;
* `Manager.Drawn m roots g`: the statements are about what can be reached from the roots;
* `Drawn.readsFrom_iff`: **the value that is read from a marker is the value of its root.**
-/

namespace Factbase.Diagram

/-! ## 1. Reading statements -/

namespace DotLine

/-- The decisions that are declared, with their variables. -/
def declarations (g : List DotLine) : List (Nat × Nat) :=
  g.filterMap fun
    | decision id var => some (id, var)
    | _ => none

theorem mem_declarations {g : List DotLine} {id var : Nat} :
    (id, var) ∈ declarations g ↔ decision id var ∈ g := by
  rw [declarations, List.mem_filterMap]
  constructor
  · rintro ⟨line, hline, heq⟩
    cases line <;> cases heq
    exact hline
  · exact fun h => ⟨_, h, rfl⟩

/-- The decisions that are declared in every block of one level. -/
def blocks : List DotLine → List (List (Nat × Nat))
  | [] => []
  | block .same :: g => declarations (g.takeWhile (· ≠ closing)) :: blocks g
  | _ :: g => blocks g

/-- Where high arrows come from. -/
def highs (g : List DotLine) : List Nat :=
  g.filterMap fun
    | arrow ⟨source, _, .high⟩ => some source
    | _ => none

/-- Where low arrows come from, complemented or not. -/
def lows (g : List DotLine) : List Nat :=
  g.filterMap fun
    | arrow ⟨source, _, .low⟩ | arrow ⟨source, _, .lowNegated⟩ => some source
    | _ => none

/-- The markers with their roots. -/
def markers (g : List DotLine) : List (Nat × Edge) :=
  g.filterMap fun
    | marker i root => some (i, root)
    | _ => none

/-- Which markers have arrows. -/
def pointers (g : List DotLine) : List Nat :=
  g.filterMap fun
    | pointer i _ _ => some i
    | _ => none

/-- Following the arrows from a decision or a leaf gives a value: a leaf has its own; from a
decision the arrow is followed that belongs to the value of its variable, and where the arrow is
marked the value is complemented. -/
inductive Reads (g : List DotLine) (ρ : Assignment) : Nat → Bool → Prop
  | leaf {value : Bool} (h : leaf value ∈ g) : Reads g ρ (if value then 1 else 0) value
  | high {id var target : Nat} {b : Bool} (hid : decision id var ∈ g) (hvar : ρ var = true)
      (harrow : arrow ⟨id, target, .high⟩ ∈ g) (h : Reads g ρ target b) : Reads g ρ id b
  | low {id var target : Nat} {b : Bool} (hid : decision id var ∈ g) (hvar : ρ var = false)
      (harrow : arrow ⟨id, target, .low⟩ ∈ g) (h : Reads g ρ target b) : Reads g ρ id b
  | lowNegated {id var target : Nat} {b : Bool} (hid : decision id var ∈ g) (hvar : ρ var = false)
      (harrow : arrow ⟨id, target, .lowNegated⟩ ∈ g) (h : Reads g ρ target b) : Reads g ρ id (!b)

/-- Following the arrow of a marker gives a value, complemented where the arrow is marked. -/
def ReadsFrom (g : List DotLine) (ρ : Assignment) (i : Nat) (b : Bool) : Prop :=
  ∃ target negated value, pointer i target negated ∈ g ∧ Reads g ρ target value ∧
    b = (negated ^^ value)

end DotLine

/-! ## 2. The statements of a drawing -/

/-- A question that only decisions, arrows and markers answer. -/
structure DotLine.Silent {α : Type} (f : DotLine → Option α) : Prop where
  opening : f .opening = none
  shapes : f .shapes = none
  block : ∀ kind, f (.block kind) = none
  leaf : ∀ value, f (.leaf value) = none
  closing : f .closing = none

namespace Drawing

open DotLine

variable (d : Drawing)

/-- The answers of a drawing's statements, in order. -/
theorem filterMap_statements {α : Type} {f : DotLine → Option α} (h : Silent f) :
    d.statements.filterMap f = d.ranks.flatten.filterMap (fun p => f (decision p.id p.node.var)) ++
      d.arrows.filterMap (fun a => f (arrow a)) ++
      d.markers.zipIdx.filterMap (fun (m, i) => f (marker i m.root)) ++
      d.markers.zipIdx.filterMap (fun (m, i) => f (pointer i m.target m.negated)) := by
  have hblock : ∀ kind (lines : List DotLine), (blockOf kind lines).filterMap f =
      lines.filterMap f := fun kind lines => by
    rw [blockOf, List.filterMap_append, List.filterMap_cons_none (h.block kind),
      List.filterMap_cons_none h.closing, List.filterMap_nil, List.append_nil]
  have hranks : ∀ ranks : List (List Placed),
      (ranks.flatMap fun rank => blockOf .same (rank.map fun p =>
        decision p.id p.node.var)).filterMap f =
      ranks.flatten.filterMap fun p => f (decision p.id p.node.var) := fun ranks => by
    rw [List.filterMap_flatMap, List.filterMap_flatten, List.flatten_eq_flatMap, List.flatMap_map]
    exact List.flatMap_congr fun rank _ => by rw [hblock, List.filterMap_map]; rfl
  simp only [statements, List.filterMap_append, hblock, hranks, List.filterMap_map,
    List.mapIdx_eq_zipIdx_map, List.filterMap_cons_none h.opening,
    List.filterMap_cons_none h.shapes, List.filterMap_cons_none (h.leaf _),
    List.filterMap_cons_none h.closing, List.filterMap_nil, List.nil_append, List.append_nil]
  rfl

theorem declarations_statements :
    declarations d.statements = d.ranks.flatten.map fun p => (p.id, p.node.var) := by
  rw [declarations, filterMap_statements d ⟨rfl, rfl, fun _ => rfl, fun _ => rfl, rfl⟩]
  simp

theorem highs_statements : highs d.statements = d.arrows.filterMap fun a =>
    if a.kind = .high then some a.source else none := by
  rw [highs, filterMap_statements d ⟨rfl, rfl, fun _ => rfl, fun _ => rfl, rfl⟩]
  simp only [List.filterMap_none, List.nil_append, List.append_nil]
  exact List.filterMap_congr fun ⟨_, _, kind⟩ _ => by cases kind <;> rfl

theorem lows_statements : lows d.statements = d.arrows.filterMap fun a =>
    if a.kind = .high then none else some a.source := by
  rw [lows, filterMap_statements d ⟨rfl, rfl, fun _ => rfl, fun _ => rfl, rfl⟩]
  simp only [List.filterMap_none, List.nil_append, List.append_nil]
  exact List.filterMap_congr fun ⟨_, _, kind⟩ _ => by cases kind <;> rfl

theorem markers_statements :
    DotLine.markers d.statements = d.markers.mapIdx fun i marker => (i, marker.root) := by
  rw [DotLine.markers, filterMap_statements d ⟨rfl, rfl, fun _ => rfl, fun _ => rfl, rfl⟩]
  simp [List.mapIdx_eq_zipIdx_map]

theorem pointers_statements : pointers d.statements = List.range d.markers.length := by
  rw [pointers, filterMap_statements d ⟨rfl, rfl, fun _ => rfl, fun _ => rfl, rfl⟩]
  simp [List.range_eq_range']

/-- Lines that begin no block of a level. -/
theorem blocks_append {lines : List DotLine} (h : ∀ line ∈ lines, line ≠ block .same)
    (g : List DotLine) : blocks (lines ++ g) = blocks g := by
  induction lines with
  | nil => rfl
  | cons line lines ih =>
      obtain ⟨hline, hlines⟩ := List.forall_mem_cons.mp h
      rw [List.cons_append, blocks, ih hlines]
      exact hline

/-- A block of a level. -/
theorem blocks_blockOf (ps : List Placed) (g : List DotLine) :
    blocks (blockOf .same (ps.map fun p => decision p.id p.node.var) ++ g) =
      (ps.map fun p => (p.id, p.node.var)) :: blocks g := by
  have hlines : ∀ line ∈ ps.map fun p => decision p.id p.node.var,
      decide (line ≠ closing) = true ∧ line ≠ block .same :=
    List.forall_mem_map.mpr fun p _ => ⟨rfl, nofun⟩
  rw [blockOf, List.append_assoc, List.cons_append, List.singleton_append, blocks]
  congr 1
  · rw [List.takeWhile_append_of_pos fun line hline => (hlines line hline).1,
      List.takeWhile_cons_of_neg (by simp), List.append_nil, declarations, List.filterMap_map]
    exact congrFun (List.filterMap_eq_map (f := fun p : Placed => (p.id, p.node.var))) ps
  · rw [blocks_append fun line hline => (hlines line hline).2]
    rfl

theorem blocks_ranks (ranks : List (List Placed)) (g : List DotLine) :
    blocks ((ranks.flatMap fun rank => blockOf .same (rank.map fun p =>
      decision p.id p.node.var)) ++ g) =
    (ranks.map fun rank => rank.map fun p => (p.id, p.node.var)) ++ blocks g := by
  induction ranks with
  | nil => rfl
  | cons rank ranks ih =>
      rw [List.flatMap_cons, List.append_assoc, blocks_blockOf, ih]
      rfl

/-- **The blocks of a drawing's statements are its ranks.** -/
theorem blocks_statements :
    blocks d.statements = d.ranks.map fun rank => rank.map fun p => (p.id, p.node.var) := by
  have hmarkers : ∀ {f : Nat → Marker → DotLine}, (∀ i marker, f i marker ≠ block .same) →
      ∀ line ∈ d.markers.mapIdx f, line ≠ block .same := fun hf line hline => by
    obtain ⟨i, hi, rfl⟩ := List.mem_mapIdx.mp hline
    exact hf i _
  have hsource : ∀ line ∈ blockOf .source (d.markers.mapIdx fun i marker =>
      .marker i marker.root), line ≠ block .same :=
    List.forall_mem_append.mpr
      ⟨List.forall_mem_cons.mpr ⟨nofun, hmarkers fun _ _ => nofun⟩, by decide⟩
  have hpointers : ∀ line ∈ d.markers.mapIdx fun i marker =>
      pointer i marker.target marker.negated, line ≠ block .same := hmarkers fun _ _ => nofun
  simp only [statements, List.append_assoc]
  rw [blocks_append (by decide), blocks_append (by decide), blocks_ranks, blocks_append (by simp),
    blocks_append hsource, blocks_append hpointers]
  exact List.append_nil _

theorem mem_statements_arrow {a : Arrow} : arrow a ∈ d.statements ↔ a ∈ d.arrows := by
  simp [statements, blockOf]

theorem mem_statements_leaf (value : Bool) : leaf value ∈ d.statements := by
  cases value <;> simp [statements, blockOf]

theorem mem_statements_pointer {i target : Nat} {negated : Bool} :
    pointer i target negated ∈ d.statements ↔ ∃ marker, d.markers[i]? = some marker ∧
      marker.target = target ∧ marker.negated = negated := by
  have hmem : pointer i target negated ∈ d.statements ↔ pointer i target negated ∈
      d.markers.mapIdx fun i marker => pointer i marker.target marker.negated := by
    simp [statements, blockOf, List.mem_mapIdx]
  rw [hmem, List.mem_iff_getElem?]
  simp only [List.getElem?_mapIdx, Option.map_eq_some_iff, pointer.injEq]
  constructor
  · rintro ⟨_, marker, hmarker, rfl, htarget, hnegated⟩
    exact ⟨marker, hmarker, htarget, hnegated⟩
  · rintro ⟨marker, hmarker, htarget, hnegated⟩
    exact ⟨i, marker, hmarker, rfl, htarget, hnegated⟩

end Drawing

/-! ## 3. What a drawing shows -/

/-- Where the arrow of an edge leads, and whether it is marked: there is a leaf for either
constant. -/
def Edge.aim (e : Edge) : Nat × Bool := if e = .zero then (0, false) else (e.index, e.negated)

theorem Edge.aim_le (e : Edge) : e.aim.1 ≤ e.index := by
  rw [aim]
  split
  · exact Nat.zero_le _
  · exact Nat.le_refl _

theorem Marker.ofRoot_eq (root : Edge) : ofRoot root = ⟨root, root.aim.1, root.aim.2⟩ := by
  rw [ofRoot, Edge.aim]
  split <;> rfl

/-- An arrow of a kind leads from a decision to a target. -/
def Node.Aims (n : Node) : ArrowKind → Nat → Prop
  | .high, target => n.high.index = target
  | .low, target => n.low.aim = (target, false)
  | .lowNegated, target => n.low.aim = (target, true)

/-- A decision has an arrow to its high child, and one to the aim of its low edge. -/
theorem Placed.arrows_eq (p : Placed) : p.arrows = [⟨p.id, p.node.high.index, .high⟩,
    ⟨p.id, p.node.low.aim.1, if p.node.low.aim.2 then .lowNegated else .low⟩] := by
  rw [arrows, Edge.aim]
  split <;> rfl

theorem Placed.filterMap_high (p : Placed) : p.arrows.filterMap (fun a =>
    if a.kind = .high then some a.source else none) = [p.id] := by
  rw [arrows_eq]
  cases p.node.low.aim.2 <;> rfl

theorem Placed.filterMap_low (p : Placed) : p.arrows.filterMap (fun a =>
    if a.kind = .high then none else some a.source) = [p.id] := by
  rw [arrows_eq]
  cases p.node.low.aim.2 <;> rfl

theorem Placed.mem_arrows {p : Placed} {a : Arrow} :
    a ∈ p.arrows ↔ a.source = p.id ∧ p.node.Aims a.kind a.target := by
  obtain ⟨source, target, kind⟩ := a
  rcases haim : p.node.low.aim with ⟨place, negated⟩
  cases kind <;> cases negated <;> simp [arrows_eq, Node.Aims, haim, eq_comm]

namespace Manager

open DotLine

variable (m : Manager) (roots : List Edge)

/-- A decision that can be reached from the roots. -/
def Shown (id : Nat) : Prop := id ≠ 1 ∧ m.Leads roots id

/-- The value of a decision or a leaf of a drawing. -/
def valueAt (ρ : Assignment) (id : Nat) : Bool := if id = 0 then false else m.eval ρ (.ofIndex id)

/-- The statements are about the decisions that can be reached, and about the roots. -/
structure Drawn (g : List DotLine) : Prop where
  leaf : ∀ value, leaf value ∈ g
  decision : ∀ id var, decision id var ∈ g ↔ m.Shown roots id ∧ (m.stored id).var = var
  arrow : ∀ a, arrow a ∈ g ↔ m.Shown roots a.source ∧ (m.stored a.source).Aims a.kind a.target
  pointer : ∀ i target negated, pointer i target negated ∈ g ↔
    ∃ root, roots[i]? = some root ∧ root.aim = (target, negated)

section Reading

variable {m} {roots} (h : m.WellFormed) (hroots : ∀ f ∈ roots, m.Holds f) {ρ : Assignment}

include h in
/-- **The value of an edge is that of its aim**, complemented where the arrow is marked. -/
theorem eval_eq_aim {e : Edge} (he : m.Holds e) :
    m.eval ρ e = (e.aim.2 ^^ m.valueAt ρ e.aim.1) := by
  by_cases hzero : e = .zero
  · rw [Edge.aim, if_pos hzero, hzero]
    rfl
  · rw [Edge.aim, if_neg hzero, valueAt, if_neg he.1]
    exact (h.negated_xor_eval he).symm

include h hroots in
/-- What can be reached is stored. -/
theorem Leads.held {id : Nat} (hid : m.Leads roots id) : id ≠ 0 ∧ id ≤ m.numNodes := by
  induction hid with
  | leaf => exact ⟨Nat.one_ne_zero, h.leaf⟩
  | root hf => exact hroots _ hf
  | low _ h2 ih => exact (h.placed _ h2 ih.2).lowHeld
  | high _ h2 ih => exact (h.placed _ h2 ih.2).highHeld

include h hroots in
theorem Shown.held {id : Nat} (hid : m.Shown roots id) : 2 ≤ id ∧ id ≤ m.numNodes := by
  obtain ⟨h0, hheld⟩ := hid.2.held h hroots
  have h1 := hid.1
  omega

include h hroots in
/-- The value of a decision is read at its arrows. -/
theorem valueAt_shown {id : Nat} (hid : m.Shown roots id) : m.valueAt ρ id =
    if ρ (m.stored id).var then m.valueAt ρ (m.stored id).high.index
    else ((m.stored id).low.aim.2 ^^ m.valueAt ρ (m.stored id).low.aim.1) := by
  obtain ⟨h2, hheld⟩ := hid.held h hroots
  have h0 : id ≠ 0 := by omega
  have hp := h.placed id h2 hheld
  -- a stored high edge is never complemented
  have hhigh : m.valueAt ρ (m.stored id).high.index = m.eval ρ (m.stored id).high := by
    rw [valueAt, if_neg hp.highHeld.1, ← h.negated_xor_eval hp.highHeld, h.regular id h2 hheld,
      Bool.false_xor]
  rw [valueAt, if_neg h0, h.eval_ofIndex (holds_ofIndex.mpr ⟨h0, hheld⟩) hid.1,
    eval_eq_aim h hp.lowHeld, hhigh]

/-- An arrow leads to the leaf `0` or to what can be reached. -/
theorem leads_aim {e : Edge} (he : m.Leads roots e.index) :
    e.aim.1 = 0 ∨ m.Leads roots e.aim.1 := by
  rw [Edge.aim]
  split
  · exact Or.inl rfl
  · exact Or.inr he

variable {g : List DotLine}

include h hroots in
/-- Whatever is read is the value. -/
theorem Drawn.eq_of_reads (d : m.Drawn roots g) {id : Nat} {b : Bool} (hreads : Reads g ρ id b) :
    b = m.valueAt ρ id := by
  induction hreads with
  | @leaf value _ => cases value <;> rfl
  | high hid hvar harrow _ ih =>
      obtain ⟨hshown, rfl⟩ := (d.decision _ _).mp hid
      have htarget : (m.stored _).high.index = _ := ((d.arrow _).mp harrow).2
      rw [valueAt_shown h hroots hshown, if_pos hvar, ih, htarget]
  | low hid hvar harrow _ ih =>
      obtain ⟨hshown, rfl⟩ := (d.decision _ _).mp hid
      obtain ⟨_, haim⟩ := (d.arrow _).mp harrow
      rw [valueAt_shown h hroots hshown, if_neg (Bool.eq_false_iff.mp hvar), ih, haim]
      exact (Bool.false_xor _).symm
  | lowNegated hid hvar harrow _ ih =>
      obtain ⟨hshown, rfl⟩ := (d.decision _ _).mp hid
      obtain ⟨_, haim⟩ := (d.arrow _).mp harrow
      rw [valueAt_shown h hroots hshown, if_neg (Bool.eq_false_iff.mp hvar), ih, haim]
      exact (Bool.true_xor _).symm

include h hroots in
/-- Everywhere a value is read. The induction is on the id, since children are stored before their
parents. -/
theorem Drawn.reads_valueAt (d : m.Drawn roots g) (id : Nat) :
    id = 0 ∨ m.Leads roots id → Reads g ρ id (m.valueAt ρ id) := by
  induction id using Nat.strongRecOn with
  | ind id ih =>
      rintro (rfl | hid)
      · exact .leaf (d.leaf false)
      by_cases h1 : id = 1
      · subst h1
        exact .leaf (d.leaf true)
      have hshown : m.Shown roots id := ⟨h1, hid⟩
      obtain ⟨h2, hheld⟩ := hshown.held h hroots
      have hp := h.placed id h2 hheld
      have hdecision := (d.decision id _).mpr ⟨hshown, rfl⟩
      rw [valueAt_shown h hroots hshown]
      cases hvar : ρ (m.stored id).var with
      | true =>
          have harrow := (d.arrow ⟨id, (m.stored id).high.index, .high⟩).mpr ⟨hshown, rfl⟩
          exact .high hdecision hvar harrow (ih _ hp.highBefore (Or.inr (hid.high h2)))
      | false =>
          have hlow := leads_aim (hid.low h2)
          have hbefore := Nat.lt_of_le_of_lt (Edge.aim_le (m.stored id).low) hp.lowBefore
          rcases haim : (m.stored id).low.aim with ⟨target, negated⟩
          rw [haim] at hlow hbefore
          have hreads := ih target hbefore hlow
          rw [if_neg Bool.false_ne_true]
          cases negated with
          | false =>
              have harrow := (d.arrow ⟨id, target, .low⟩).mpr ⟨hshown, haim⟩
              rw [Bool.false_xor]
              exact .low hdecision hvar harrow hreads
          | true =>
              have harrow := (d.arrow ⟨id, target, .lowNegated⟩).mpr ⟨hshown, haim⟩
              rw [Bool.true_xor]
              exact .lowNegated hdecision hvar harrow hreads

include h hroots in
/-- **The value that is read from a marker is the value of its root.** -/
theorem Drawn.readsFrom_iff (d : m.Drawn roots g) {i : Nat} {root : Edge}
    (hi : roots[i]? = some root) {b : Bool} : ReadsFrom g ρ i b ↔ b = m.eval ρ root := by
  have hmem := List.mem_of_getElem? hi
  rw [eval_eq_aim h (hroots root hmem)]
  constructor
  · rintro ⟨target, negated, value, hpointer, hreads, rfl⟩
    obtain ⟨root', hi', haim⟩ := (d.pointer _ _ _).mp hpointer
    obtain rfl := Option.some.inj (hi.symm.trans hi')
    rw [d.eq_of_reads h hroots hreads, haim]
  · rintro rfl
    exact ⟨_, _, _, (d.pointer _ _ _).mpr ⟨root, hi, rfl⟩,
      d.reads_valueAt h hroots _ (leads_aim (.root hmem)), rfl⟩

end Reading

end Manager

end Factbase.Diagram
