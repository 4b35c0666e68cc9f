import Factbase.Diagram.Dot
import Mathlib.Data.List.SplitBy
import Std.Data.TreeMap.Lemmas

/-!
# The ranks of a drawing

The decisions of a drawing stand in ranks, one for each level that has some.

* `rankAt placed l`: the decisions at a level, by id; `AreLevels`: the levels that have some;
* `byLevel_eq`: **the ranks of a drawing are those of its levels, from the top**;
* `shelve`, `shelved`: ranks that are filled while the decisions are met, each of them brought in
  order at the end;
* `byLevel_eq_shelved`: **in whatever order the decisions are met, the ranks are the same.**
-/

namespace Factbase.Diagram.Placed

/-- The decisions at a level, by id. -/
def rankAt (placed : List Placed) (l : Nat) : List Placed :=
  (placed.filter (·.level == l)).mergeSort fun p q => decide (p.id ≤ q.id)

/-- The levels that have decisions, from the top. -/
structure AreLevels (placed : List Placed) (levels : List Nat) : Prop where
  ascending : levels.Pairwise (· < ·)
  mem_iff : ∀ l, l ∈ levels ↔ ∃ p ∈ placed, p.level = l

/-- The first decision stands in a rank above that of the second one, or in front of it. -/
def Leading (p q : Placed) : Prop := p.level < q.level ∨ p.level = q.level ∧ p.id < q.id

section Sorting

variable (key : Placed → Nat)

theorem le_trans_key (p q r : Placed) : decide (key p ≤ key q) = true →
    decide (key q ≤ key r) = true → decide (key p ≤ key r) = true := by
  simp only [decide_eq_true_iff]
  exact Nat.le_trans

theorem le_total_key (p q : Placed) :
    (decide (key p ≤ key q) || decide (key q ≤ key p)) = true := by
  rw [Bool.or_eq_true, decide_eq_true_iff, decide_eq_true_iff]
  exact Nat.le_total _ _

theorem pairwise_sort (placed : List Placed) :
    (placed.mergeSort fun p q => decide (key p ≤ key q)).Pairwise fun p q => key p ≤ key q :=
  (List.pairwise_mergeSort (le_trans_key key) (le_total_key key) placed).imp of_decide_eq_true

end Sorting

theorem Leading.asymm {p q : Placed} (h : Leading p q) : ¬ Leading q p := by
  unfold Leading at *
  omega

theorem Leading.ne {p q : Placed} (h : Leading p q) : p ≠ q := by
  rintro rfl
  exact h.asymm h

/-! ## 1. One rank -/

section Rank

variable {placed placed' : List Placed} {l : Nat}

theorem mem_rankAt {p : Placed} : p ∈ rankAt placed l ↔ p ∈ placed ∧ p.level = l := by
  rw [rankAt, List.mem_mergeSort, List.mem_filter, beq_iff_eq]

/-- **A rank is in the order of its ids**, which are different. -/
theorem pairwise_rankAt (hids : placed.Pairwise fun p q => p.id ≠ q.id) :
    (rankAt placed l).Pairwise fun p q => p.id < q.id := by
  have hdiffer : (rankAt placed l).Pairwise fun p q => p.id ≠ q.id :=
    (hids.sublist List.filter_sublist).perm (List.mergeSort_perm _ _).symm Ne.symm
  exact (pairwise_sort Placed.id _).imp₂ (fun p q hle hne => Nat.lt_of_le_of_ne hle hne) hdiffer

/-- A rank does not depend on the order in which the decisions are given. -/
theorem rankAt_perm (hp : placed'.Perm placed) (hids : placed.Pairwise fun p q => p.id ≠ q.id) :
    rankAt placed' l = rankAt placed l := by
  have hperm : (rankAt placed' l).Perm (rankAt placed l) :=
    (List.mergeSort_perm _ _).trans ((hp.filter _).trans (List.mergeSort_perm _ _).symm)
  exact hperm.eq_of_pairwise (fun p q _ _ hpq hqp => absurd hqp (Nat.lt_asymm hpq))
    (pairwise_rankAt (hids.perm hp.symm Ne.symm)) (pairwise_rankAt hids)

end Rank

/-! ## 2. All ranks -/

section Ranks

variable {placed : List Placed} {levels : List Nat}

/-- The ranks put behind each other. -/
theorem pairwise_ranks (hids : placed.Pairwise fun p q => p.id ≠ q.id)
    (hasc : levels.Pairwise (· < ·)) : (levels.map (rankAt placed)).flatten.Pairwise Leading := by
  refine List.pairwise_flatten.mpr ⟨List.forall_mem_map.mpr fun l _ => ?_,
    List.pairwise_map.mpr (hasc.imp fun {l l'} hlt p hp q hq => ?_)⟩
  · refine (pairwise_rankAt hids).imp_of_mem fun hp hq hlt => Or.inr ⟨?_, hlt⟩
    rw [(mem_rankAt.mp hp).2, (mem_rankAt.mp hq).2]
  · exact Or.inl (by rwa [(mem_rankAt.mp hp).2, (mem_rankAt.mp hq).2])

theorem mem_ranks (h : AreLevels placed levels) {p : Placed} :
    p ∈ (levels.map (rankAt placed)).flatten ↔ p ∈ placed := by
  constructor
  · intro hp
    obtain ⟨rank, hrank, hp⟩ := List.mem_flatten.mp hp
    obtain ⟨l, _, rfl⟩ := List.mem_map.mp hrank
    exact (mem_rankAt.mp hp).1
  · exact fun hp => List.mem_flatten.mpr ⟨_,
      List.mem_map_of_mem ((h.mem_iff p.level).mpr ⟨p, hp, rfl⟩), mem_rankAt.mpr ⟨hp, rfl⟩⟩

/-- The ranks have the given decisions, each of them once. -/
theorem perm_ranks (h : AreLevels placed levels) (hids : placed.Pairwise fun p q => p.id ≠ q.id) :
    (levels.map (rankAt placed)).flatten.Perm placed :=
  (List.perm_ext_iff_of_nodup ((pairwise_ranks hids h.ascending).imp Leading.ne)
    (hids.imp fun hne heq => hne (congrArg Placed.id heq))).mpr fun _ => mem_ranks h

/-- **Ranks are told apart by their levels.** -/
theorem splitBy_ranks (h : AreLevels placed levels) :
    ((levels.map (rankAt placed)).flatten).splitBy (fun p q => p.level == q.level) =
      levels.map (rankAt placed) := by
  have hne : ∀ l ∈ levels, rankAt placed l ≠ [] := fun l hl hnil => by
    obtain ⟨p, hp, hpl⟩ := (h.mem_iff l).mp hl
    have hmem := mem_rankAt.mpr ⟨hp, hpl⟩
    rw [hnil] at hmem
    cases hmem
  refine List.splitBy_flatten ?_ (List.forall_mem_map.mpr fun l _ => ?_) ?_
  · intro hmem
    obtain ⟨l, hl, hnil⟩ := List.mem_map.mp hmem
    exact hne l hl hnil
  · refine (List.pairwise_of_forall_mem_list fun p hp q hq => ?_).isChain
    rw [(mem_rankAt.mp hp).2, (mem_rankAt.mp hq).2, beq_self_eq_true]
  · refine (List.pairwise_map.mpr (h.ascending.imp_of_mem fun {l l'} hl hl' hlt => ?_)).isChain
    refine ⟨hne l hl, hne l' hl', beq_eq_false_iff_ne.mpr ?_⟩
    rw [(mem_rankAt.mp (List.getLast_mem _)).2, (mem_rankAt.mp (List.head_mem _)).2]
    exact Nat.ne_of_lt hlt

/-- Sorting by level keeps the decisions of a level in their order. -/
theorem filter_mergeSort (l : Nat) :
    (placed.mergeSort fun p q => decide (p.level ≤ q.level)).filter (·.level == l) =
      placed.filter (·.level == l) := by
  have hsub : (placed.filter (·.level == l)).Sublist
      (placed.mergeSort fun p q => decide (p.level ≤ q.level)) := by
    refine List.sublist_mergeSort (le_trans_key Placed.level) (le_total_key Placed.level)
      (List.pairwise_of_forall_mem_list fun p hp q hq => decide_eq_true ?_) List.filter_sublist
    rw [beq_iff_eq.mp (List.mem_filter.mp hp).2, beq_iff_eq.mp (List.mem_filter.mp hq).2]
  have hfilter := hsub.filter (·.level == l)
  simp only [List.filter_filter, Bool.and_self] at hfilter
  exact (hfilter.eq_of_length ((List.mergeSort_perm placed _).filter _).length_eq.symm).symm

/-- Decisions that are sorted by id and then by level. -/
theorem pairwise_mergeSort (hids : placed.Pairwise fun p q => p.id < q.id) :
    (placed.mergeSort fun p q => decide (p.level ≤ q.level)).Pairwise Leading := by
  refine List.pairwise_iff_forall_sublist.mpr fun {p q} hsub => ?_
  have hle := List.pairwise_iff_forall_sublist.mp (pairwise_sort Placed.level placed) hsub
  rcases Nat.lt_or_eq_of_le hle with hlt | heq
  · exact Or.inl hlt
  · -- both stand at one level, where the order is that of the given list
    have hlevel := hsub.filter (·.level == q.level)
    rw [filter_mergeSort, show [p, q].filter (·.level == q.level) = [p, q] by simp [heq]] at hlevel
    exact Or.inr
      ⟨heq, List.pairwise_iff_forall_sublist.mp (hids.sublist List.filter_sublist) hlevel⟩

/-- **The ranks of a drawing are those of its levels**, from the top. -/
theorem byLevel_eq (h : AreLevels placed levels) (hids : placed.Pairwise fun p q => p.id < q.id) :
    byLevel placed = levels.map (rankAt placed) := by
  have hne := hids.imp fun {p q : Placed} => Nat.ne_of_lt
  have hperm : (placed.mergeSort fun p q => decide (p.level ≤ q.level)).Perm
      (levels.map (rankAt placed)).flatten :=
    (List.mergeSort_perm _ _).trans (perm_ranks h hne).symm
  rw [byLevel, hperm.eq_of_pairwise (fun p q _ _ hpq hqp => absurd hqp hpq.asymm)
    (pairwise_mergeSort hids) (pairwise_ranks hne h.ascending), splitBy_ranks h]

end Ranks

/-! ## 3. Ranks that are filled in any order -/

/-- Put a decision at the end of what is there of its level. -/
def put (shelves : Std.TreeMap Nat (List Placed)) (p : Placed) : Std.TreeMap Nat (List Placed) :=
  shelves.alter p.level fun rank => some (rank.getD [] ++ [p])

/-- What is there of every level, in the order in which the decisions are met. -/
def shelve (placed : List Placed) : Std.TreeMap Nat (List Placed) := placed.foldl put ∅

/-- The ranks by level, each of them brought in order. -/
def shelved (placed : List Placed) : List (List Placed) :=
  (shelve placed).toList.map fun (_, rank) => rank.mergeSort fun p q => decide (p.id ≤ q.id)

section Shelves

variable {placed placed' : List Placed} {l : Nat}

/-- The decisions of a level are found there, in the order in which they were met. -/
theorem getElem?_shelve : (shelve placed)[l]? =
    if placed.filter (·.level == l) = [] then none else some (placed.filter (·.level == l)) := by
  induction placed using List.reverseRecOn with
  | nil => exact Std.TreeMap.getElem?_emptyc
  | append_singleton placed p ih =>
      rw [shelve, List.foldl_append, ← shelve, List.foldl_cons, List.foldl_nil, put,
        Std.TreeMap.getElem?_alter, List.filter_append]
      by_cases hl : p.level = l
      · subst hl
        rw [if_pos (Nat.compare_eq_eq.mpr rfl), ih,
          show [p].filter (·.level == p.level) = [p] by simp,
          if_neg (List.append_ne_nil_of_right_ne_nil _ (List.cons_ne_nil _ _))]
        by_cases hnil : placed.filter (·.level == p.level) = []
        · rw [if_pos hnil, hnil]
          rfl
        · rw [if_neg hnil]
          rfl
      · rw [if_neg (by rwa [Nat.compare_eq_eq]), ih, List.filter_cons_of_neg (by rwa [beq_iff_eq]),
          List.filter_nil, List.append_nil]

theorem mem_toList_shelve {rank : List Placed} : (l, rank) ∈ (shelve placed).toList ↔
    rank ≠ [] ∧ rank = placed.filter (·.level == l) := by
  rw [Std.TreeMap.mem_toList_iff_getElem?_eq_some, getElem?_shelve]
  split
  · rename_i hnil
    rw [hnil]
    exact iff_of_false nofun fun ⟨hne, heq⟩ => hne heq
  · rename_i hne
    rw [Option.some.injEq]
    exact ⟨fun heq => ⟨heq ▸ hne, heq.symm⟩, fun ⟨_, heq⟩ => heq.symm⟩

/-- The levels of the shelves are those that have decisions. -/
theorem areLevels_shelve : AreLevels placed (shelve placed).keys where
  ascending := Std.TreeMap.ordered_keys.imp Nat.compare_eq_lt.mp
  mem_iff l := by
    have hexists : (∃ p ∈ placed, p.level = l) ↔ placed.filter (·.level == l) ≠ [] := by
      rw [ne_eq, List.filter_eq_nil_iff]
      simp
    rw [hexists, ← Std.TreeMap.map_fst_toList_eq_keys, List.mem_map]
    constructor
    · rintro ⟨⟨l, rank⟩, hmem, rfl⟩
      obtain ⟨hne, rfl⟩ := mem_toList_shelve.mp hmem
      exact hne
    · exact fun hne => ⟨(l, _), mem_toList_shelve.mpr ⟨hne, rfl⟩, rfl⟩

theorem shelved_eq : shelved placed = (shelve placed).keys.map (rankAt placed) := by
  rw [shelved, ← Std.TreeMap.map_fst_toList_eq_keys, List.map_map]
  refine List.map_congr_left fun ⟨l, rank⟩ hmem => ?_
  obtain ⟨_, rfl⟩ := mem_toList_shelve.mp hmem
  rfl

/-- **In whatever order the decisions are met, the ranks are the same.** -/
theorem byLevel_eq_shelved (hp : placed'.Perm placed)
    (hids : placed.Pairwise fun p q => p.id < q.id) : byLevel placed = shelved placed' := by
  have hne := hids.imp fun {p q : Placed} => Nat.ne_of_lt
  have hlevels : AreLevels placed (shelve placed').keys := ⟨areLevels_shelve.ascending, fun l => by
    rw [areLevels_shelve.mem_iff]
    exact exists_congr fun p => and_congr_left fun _ => hp.mem_iff⟩
  rw [byLevel_eq hlevels hids, shelved_eq]
  exact List.map_congr_left fun l _ => (rankAt_perm hp hne).symm

end Shelves

end Factbase.Diagram.Placed
