import Factbase.Proofs.Diagram.Histories
import Factbase.Proofs.Diagram.Pictures
import Factbase.Proofs.Diagram.Ranks

/-!
# Drawings show their roots

* `Manager.Laid`: the decisions of a drawing and their levels;
* `drawingFrom`: the drawing where the nodes are met in some order;
* `exists_drawing`: **a drawing comes out, the same in whatever order the nodes are met**;
* `Faithful m roots g`: the statements show the values of the roots;
* `WellFormed.dot_faithful`: **the text of a drawing shows its roots.**
-/

namespace Factbase.Diagram.Manager

open Diagram.Placed DotLine Text

/-! ## 1. The decisions of a drawing -/

/-- The decision with an id, at the level of its variable. -/
def placedAt (m : Manager) (id : Nat) : Diagram.Placed :=
  ⟨id, m.order.levelAt (m.stored id).var, m.stored id⟩

/-- The decisions that can be reached, by id, and the levels that have some. -/
structure Laid (m : Manager) (roots : List Edge) (placed : List Diagram.Placed)
    (levels : List Nat) : Prop where
  ascending : placed.Pairwise fun p q => p.id < q.id
  mem_iff : ∀ p, p ∈ placed ↔ m.Shown roots p.id ∧ p = m.placedAt p.id
  levels : AreLevels placed levels

/-- The drawing with some ranks. -/
def drawingOf (roots : List Edge) (ranks : List (List Diagram.Placed)) : Drawing :=
  ⟨ranks, ranks.flatten.flatMap Diagram.Placed.arrows, roots.map Marker.ofRoot⟩

/-- The drawing where the nodes are met in some order: the ranks are filled while they are met. -/
def drawingFrom (m : Manager) (met : List Nat) (roots : List Edge) : Except Fault Drawing := do
  return drawingOf roots (shelved (← (met.filter (· ≠ 1)).mapM m.placed))

section Laid

variable {m : Manager} {roots : List Edge}

theorem placed_eq (h : m.WellFormed) (hroots : ∀ f ∈ roots, m.Holds f) {id : Nat}
    (hid : m.Shown roots id) : m.placed id = .ok (m.placedAt id) := by
  obtain ⟨h2, hheld⟩ := hid.held h hroots
  exact bind_eq_ok (node_eq (by omega) hheld)
    (bind_eq_ok (h.order.levelOf_eq (h.placed id h2 hheld).var) rfl)

/-- **A drawing comes out**, the same in whatever order the nodes are met. -/
theorem exists_drawing (h : m.WellFormed) (hroots : ∀ f ∈ roots, m.Holds f) :
    ∃ found placed levels, m.reachable roots = .ok found ∧ m.Laid roots placed levels ∧
      m.drawing roots = .ok (drawingOf roots (levels.map (rankAt placed))) ∧
      ∀ met, met.Perm found → m.drawingFrom met roots = m.drawing roots := by
  obtain ⟨found, hfound, hsorted, hmem⟩ := reachable_eq h.toFounded hroots
  have hshown : ∀ id, id ∈ found.filter (· ≠ 1) ↔ m.Shown roots id := fun id => by
    rw [List.mem_filter, hmem, decide_eq_true_iff, Shown, and_comm]
  have hplaced : ∀ {met : List Nat}, met.Perm found →
      (met.filter (· ≠ 1)).mapM m.placed = .ok ((met.filter (· ≠ 1)).map m.placedAt) :=
    fun hp => mapM_eq_ok fun id hid =>
      placed_eq h hroots ((hshown id).mp ((hp.filter _).mem_iff.mp hid))
  have hasc : ((found.filter (· ≠ 1)).map m.placedAt).Pairwise fun p q => p.id < q.id :=
    List.pairwise_map.mpr (hsorted.filter _)
  have hrun : m.drawing roots = .ok (drawingOf roots
      (byLevel ((found.filter (· ≠ 1)).map m.placedAt))) :=
    bind_eq_ok hfound (bind_eq_ok (hplaced (.refl found)) rfl)
  refine ⟨found, _, _, hfound, ⟨hasc, fun p => ?_, areLevels_shelve⟩, ?_, fun met hp => ?_⟩
  · rw [List.mem_map]
    constructor
    · rintro ⟨id, hid, rfl⟩
      exact ⟨(hshown id).mp hid, rfl⟩
    · exact fun ⟨hid, heq⟩ => ⟨p.id, (hshown p.id).mpr hid, heq.symm⟩
  · rw [hrun, byLevel_eq areLevels_shelve hasc]
  · rw [hrun, byLevel_eq_shelved ((hp.filter _).map _) hasc]
    exact bind_eq_ok (hplaced hp) rfl

end Laid

/-! ## 2. Faithful statements -/

/-- The ids are those of the decisions that can be reached, each of them once. -/
structure EachShown (m : Manager) (roots : List Edge) (ids : List Nat) : Prop where
  nodup : ids.Nodup
  mem_iff : ∀ id, id ∈ ids ↔ m.Shown roots id

/-- The declarations are those of the decisions at a level, by id. -/
structure IsRank (m : Manager) (roots : List Edge) (l : Nat) (rank : List (Nat × Nat)) : Prop where
  nonempty : rank ≠ []
  ascending : rank.Pairwise fun p q => p.1 < q.1
  mem_iff : ∀ id var, (id, var) ∈ rank ↔
    m.Shown roots id ∧ (m.stored id).var = var ∧ m.order.levelOf var = .ok l

/-- The statements show the roots. -/
structure Faithful (m : Manager) (roots : List Edge) (g : List DotLine) : Prop where
  /-- The blocks follow the levels. -/
  ranks : ∃ levels : List Nat, levels.Pairwise (· < ·) ∧
    List.Forall₂ (m.IsRank roots) levels (blocks g)
  /-- No decision is declared outside of them. -/
  inBlocks : declarations g = (blocks g).flatten
  declared : m.EachShown roots ((declarations g).map Prod.fst)
  highs : m.EachShown roots (highs g)
  lows : m.EachShown roots (lows g)
  /-- There is a marker for every root, in the given order. -/
  markers : markers g = roots.mapIdx fun i root => (i, root)
  /-- And there is an arrow for every marker. -/
  pointers : pointers g = List.range roots.length
  value : ∀ i root, roots[i]? = some root → ∀ ρ b, ReadsFrom g ρ i b ↔ b = m.eval ρ root

section Laid

variable {m : Manager} {roots : List Edge} {placed : List Diagram.Placed} {levels : List Nat}
  (l : m.Laid roots placed levels)

include l

theorem Laid.perm : (levels.map (rankAt placed)).flatten.Perm placed :=
  perm_ranks l.levels (l.ascending.imp Nat.ne_of_lt)

theorem Laid.mem_flatten {p : Diagram.Placed} : p ∈ (levels.map (rankAt placed)).flatten ↔
    m.Shown roots p.id ∧ p = m.placedAt p.id := by
  rw [l.perm.mem_iff, l.mem_iff]

theorem Laid.eachShown :
    m.EachShown roots ((levels.map (rankAt placed)).flatten.map Diagram.Placed.id) where
  nodup := (l.perm.map _).nodup_iff.mpr (List.pairwise_map.mpr (l.ascending.imp Nat.ne_of_lt))
  mem_iff id := by
    rw [List.mem_map]
    constructor
    · rintro ⟨p, hp, rfl⟩
      exact (l.mem_flatten.mp hp).1
    · exact fun hid => ⟨m.placedAt id, l.mem_flatten.mpr ⟨hid, rfl⟩, rfl⟩

/-- The statements of the drawing. -/
theorem Laid.drawn : m.Drawn roots (drawingOf roots (levels.map (rankAt placed))).statements where
  leaf := Drawing.mem_statements_leaf _
  decision id var := by
    rw [← mem_declarations, Drawing.declarations_statements, List.mem_map]
    constructor
    · rintro ⟨p, hp, heq⟩
      cases heq
      obtain ⟨hid, heq⟩ := l.mem_flatten.mp hp
      exact ⟨hid, by rw [heq]; rfl⟩
    · rintro ⟨hid, rfl⟩
      exact ⟨m.placedAt id, l.mem_flatten.mpr ⟨hid, rfl⟩, rfl⟩
  arrow a := by
    rw [Drawing.mem_statements_arrow, drawingOf, List.mem_flatMap]
    constructor
    · rintro ⟨p, hp, ha⟩
      obtain ⟨hid, heq⟩ := l.mem_flatten.mp hp
      obtain ⟨hsource, haims⟩ := mem_arrows.mp ha
      rw [hsource]
      rw [heq] at haims
      exact ⟨hid, haims⟩
    · exact fun ⟨hid, haims⟩ => ⟨m.placedAt a.source, l.mem_flatten.mpr ⟨hid, rfl⟩,
        mem_arrows.mpr ⟨rfl, haims⟩⟩
  pointer i target negated := by
    rw [Drawing.mem_statements_pointer, drawingOf]
    simp only [List.getElem?_map, Option.map_eq_some_iff]
    constructor
    · rintro ⟨_, ⟨root, hroot, rfl⟩, htarget, hnegated⟩
      rw [Marker.ofRoot_eq] at htarget hnegated
      exact ⟨root, hroot, Prod.ext htarget hnegated⟩
    · rintro ⟨root, hroot, haim⟩
      refine ⟨_, ⟨root, hroot, rfl⟩, ?_⟩
      rw [Marker.ofRoot_eq, haim]
      exact ⟨rfl, rfl⟩

theorem Laid.isRank (h : m.WellFormed) (hroots : ∀ f ∈ roots, m.Holds f) {k : Nat}
    (hk : k ∈ levels) :
    m.IsRank roots k ((rankAt placed k).map fun p => (p.id, p.node.var)) where
  nonempty hnil := by
    obtain ⟨p, hp, hlevel⟩ := (l.levels.mem_iff k).mp hk
    exact List.not_mem_nil (List.map_eq_nil_iff.mp hnil ▸ mem_rankAt.mpr ⟨hp, hlevel⟩)
  ascending := List.pairwise_map.mpr (pairwise_rankAt (l.ascending.imp Nat.ne_of_lt))
  mem_iff id var := by
    have hlevel : m.Shown roots id →
        m.order.levelOf (m.stored id).var = .ok (m.placedAt id).level := fun hid => by
      obtain ⟨h2, hheld⟩ := hid.held h hroots
      exact h.order.levelOf_eq (h.placed id h2 hheld).var
    rw [List.mem_map]
    constructor
    · rintro ⟨p, hp, heq⟩
      cases heq
      obtain ⟨hmem, rfl⟩ := mem_rankAt.mp hp
      obtain ⟨hid, heq⟩ := (l.mem_iff p).mp hmem
      rw [heq]
      exact ⟨hid, rfl, hlevel hid⟩
    · rintro ⟨hid, rfl, hk⟩
      have hmem : m.placedAt id ∈ placed := (l.mem_iff (m.placedAt id)).mpr ⟨hid, rfl⟩
      exact ⟨m.placedAt id,
        mem_rankAt.mpr ⟨hmem, Except.ok.inj ((hlevel hid).symm.trans hk)⟩, rfl⟩

theorem Laid.faithful (h : m.WellFormed) (hroots : ∀ f ∈ roots, m.Holds f) :
    m.Faithful roots (drawingOf roots (levels.map (rankAt placed))).statements where
  ranks := by
    refine ⟨levels, l.levels.ascending, ?_⟩
    rw [Drawing.blocks_statements, drawingOf, List.map_map, List.forall₂_map_right_iff,
      List.forall₂_same]
    exact fun k hk => l.isRank h hroots hk
  inBlocks := by
    rw [Drawing.declarations_statements, Drawing.blocks_statements, List.map_flatten]
  declared := by
    rw [Drawing.declarations_statements, List.map_map]
    exact l.eachShown
  highs := by
    rw [Drawing.highs_statements, drawingOf, List.filterMap_flatMap]
    simp only [Placed.filterMap_high]
    rw [← List.map_eq_flatMap]
    exact l.eachShown
  lows := by
    rw [Drawing.lows_statements, drawingOf, List.filterMap_flatMap]
    simp only [Placed.filterMap_low]
    rw [← List.map_eq_flatMap]
    exact l.eachShown
  markers := by
    rw [Drawing.markers_statements, drawingOf, List.mapIdx_eq_zipIdx_map,
      List.mapIdx_eq_zipIdx_map, List.zipIdx_map, List.map_map]
    refine List.map_congr_left fun ⟨root, i⟩ _ => ?_
    show (i, (Marker.ofRoot root).root) = (i, root)
    rw [Marker.ofRoot_eq]
  pointers := by
    rw [Drawing.pointers_statements, drawingOf, List.length_map]
  value i root hi ρ b := l.drawn.readsFrom_iff h hroots hi

end Laid

/-! ## 3. Main result -/

/-- The text of the drawing where the nodes are met in some order. -/
def dotFrom (m : Manager) (met : List Nat) (style : DotStyle) (label : Nat → String)
    (roots : List Edge) : Except Fault String := do
  return (← m.drawingFrom met roots).render style label

/-- **The text of a drawing shows its roots.** The text of a drawing comes out for any roots, and
its lines are those of one list of statements. Each decision that can be reached is declared once,
in the block of its level; blocks follow the levels, and the declarations of a block the ids. Each
of these decisions has one high and one low arrow, and each root has one marker with one arrow.
Following the arrows from the marker of a root gives the value of the root under any assignment, and
no other value. In whatever order the nodes are met, the text is the same. -/
theorem WellFormed.dot_faithful {m : Manager} {roots : List Edge} (h : m.WellFormed)
    (hroots : ∀ f ∈ roots, m.Holds f) :
    ∃ text g found, m.dot .standard numberLabel roots = .ok text ∧
      (∀ g', splitLines text.toList = g'.map DotLine.text ↔ g' = g) ∧ m.Faithful roots g ∧
      m.reachable roots = .ok found ∧
      ∀ met, met.Perm found → m.dotFrom met .standard numberLabel roots = .ok text := by
  obtain ⟨found, placed, levels, hfound, l, hdrawing, hsame⟩ := exists_drawing h hroots
  have hrun : m.dot .standard numberLabel roots = .ok _ := bind_eq_ok hdrawing rfl
  refine ⟨_, _, found, hrun, fun g' => ?_, l.faithful h hroots, hfound, fun met hp => ?_⟩
  · rw [Drawing.splitLines_render, (List.map_injective_iff.mpr text_injective).eq_iff]
    exact eq_comm
  · exact bind_eq_ok ((hsame met hp).trans hdrawing) rfl

/-- The drawing of a disjunction, of the complement of its second variable and of a constant, where
the disjunction is drawn from two markers. -/
theorem dot_faithful_disjunction : ∃ m, Reached m [⟨3⟩, ⟨2⟩, .one, .zero] ∧ m.WellFormed ∧
    (∀ f ∈ [⟨3⟩, -⟨2⟩, .zero, ⟨3⟩], m.Holds f) ∧
    ∃ text g, m.dot .standard numberLabel [⟨3⟩, -⟨2⟩, .zero, ⟨3⟩] = .ok text ∧
      splitLines text.toList = g.map DotLine.text ∧ pointers g = [0, 1, 2, 3] ∧
      ∀ ρ b, ReadsFrom g ρ 1 b ↔ b = m.eval ρ (-⟨2⟩) := by
  obtain ⟨m, r, _, _⟩ := reached_disjunction
  obtain ⟨h, hrefs⟩ := r.wellFormed
  obtain ⟨hthree, htwo, _, hzero⟩ : m.Holds ⟨3⟩ ∧ m.Holds ⟨2⟩ ∧ m.Holds .one ∧ m.Holds .zero := by
    simpa using hrefs
  have hroots : ∀ f ∈ [⟨3⟩, -⟨2⟩, .zero, ⟨3⟩], m.Holds f := by
    simpa using ⟨hthree, holds_neg.mpr htwo, hzero, hthree⟩
  obtain ⟨text, g, _, run, hlines, hg, _, _⟩ := h.dot_faithful hroots
  exact ⟨m, r, h, hroots, text, g, run, (hlines g).mpr rfl, hg.pointers, hg.value 1 _ rfl⟩

end Factbase.Diagram.Manager
