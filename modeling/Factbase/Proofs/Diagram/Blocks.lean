import Mathlib.Algebra.Order.BigOperators.Group.List
import Mathlib.Algebra.Order.Group.Nat
import Mathlib.Data.Nat.Bits
import Factbase.Proofs.Diagram.Coverage
import Factbase.Proofs.Diagram.Halving

/-!
# The blocks of a cursor

A cursor lists a block of tuples for every profile. The block is given here without counting up: the
care levels that the profile leaves free are the digits of a number, and the number runs through all
that these digits can write.

* `freeCare care P`: the digits, the last one being the lowest; `numbered`: the profile with a
  number written into them;
* `settings_eq_map`: **counting up goes through the numbers in order**;
* `block slots care P`: the tuples of a profile, slot by slot the number or the mark;
* `expand_eq_block`: **the tuples of a profile are its block**;
* `length_blocks_le`: all blocks together stay within the bound of a cursor;
* `lists_blocks`: **a cursor lists the blocks of the profiles**, over any slots and care levels.
-/

namespace Factbase.Diagram.Cursor

open Manager PathWalk

/-- The care levels that a profile leaves free, each where it first occurs. -/
def freeCare (care : List Nat) (P : Array Bit) : List Nat :=
  (care.filter fun l => P[l]? = some .free).eraseDups

/-- The profile with levels set to the digits of a number, the last level to the lowest digit. -/
def numbered (levels : List Nat) (P : Array Bit) (n : Nat) : Array Bit :=
  P.mapIdx fun l bit =>
    if l ∈ levels then (if n.testBit (levels.reverse.idxOf l) then .one else .zero) else bit

/-- The settings of the free care levels, in the order of the numbers. -/
def counted (care : List Nat) (P : Array Bit) : List (Array Bit) :=
  (List.range (2 ^ (freeCare care P).length)).map (numbered (freeCare care P) P)

/-- The item of a slot where the free care levels of a profile are set: the number that its levels
spell, or the mark where one of them is free and not cared for. -/
def itemAt (care : List Nat) (P a : Array Bit) (levels : List Nat) : Int :=
  if ∃ l ∈ levels, P[l]? = some .free ∧ l ∉ care then Tuple.indeterminate else spelled a 0 levels

/-- The tuples of a profile. -/
def block (slots : List (List Nat)) (care : List Nat) (P : Array Bit) : List Tuple :=
  (counted care P).map fun a => ⟨slots.map (itemAt care P a)⟩

theorem itemAt_eq_indeterminate_iff {care : List Nat} {P a : Array Bit} {levels : List Nat} :
    itemAt care P a levels = Tuple.indeterminate ↔ ∃ l ∈ levels, P[l]? = some .free ∧ l ∉ care := by
  refine ⟨fun hmark => not_not.mp fun hnone => ?_, fun hfree => if_pos hfree⟩
  rw [itemAt, if_neg hnone] at hmark
  cases hmark

/-! ## 1. Free care levels -/

section FreeCare

variable {care : List Nat} {P : Array Bit}

theorem mem_freeCare {l : Nat} : l ∈ freeCare care P ↔ l ∈ care ∧ P[l]? = some .free := by
  rw [freeCare, List.mem_eraseDups, List.mem_filter, decide_eq_true_iff]

/-- A level that is set to zero is no longer free, wherever else it stands. -/
theorem unset_eq_freeCare : ∀ {care : List Nat} {P : Array Bit}, unset care P = freeCare care P
  | [], _ => rfl
  | l :: care, P => by
      rw [unset, freeCare, List.filter_cons]
      by_cases hfree : P[l]? = some .free
      · have hlt := (Array.getElem?_eq_some_iff.mp hfree).1
        rw [if_pos hfree, if_pos (decide_eq_true hfree), List.eraseDups_cons, List.filter_filter,
          unset_eq_freeCare, freeCare]
        refine congrArg (fun ls : List Nat => l :: ls.eraseDups) (List.filter_congr fun k _ => ?_)
        by_cases hk : k = l
        · rw [hk, Array.getElem?_setIfInBounds_self_of_lt hlt]
          simp
        · rw [Array.getElem?_setIfInBounds_ne (Ne.symm hk)]
          simp [hk]
      · rw [if_neg hfree, if_neg (by simpa using hfree), unset_eq_freeCare, freeCare]

theorem nodup_freeCare : (freeCare care P).Nodup := unset_eq_freeCare ▸ nodup_unset

/-- Of more care levels, more are free. -/
theorem length_freeCare_le {care' : List Nat} (hsub : care ⊆ care') :
    (freeCare care P).length ≤ (freeCare care' P).length :=
  nodup_freeCare.length_le_of_subset fun _ hl =>
    mem_freeCare.mpr ⟨hsub (mem_freeCare.mp hl).1, (mem_freeCare.mp hl).2⟩

end FreeCare

/-! ## 2. Counting goes through the numbers -/

/-- Every number below twice a bound is twice a number below it, or one more. -/
theorem range_double (n : Nat) :
    List.range (2 * n) = (List.range n).flatMap fun k => [Nat.bit false k, Nat.bit true k] := by
  induction n with
  | zero => rfl
  | succ n ih =>
      rw [Nat.mul_succ, List.range_succ, List.range_succ, List.range_succ, ih, List.flatMap_append,
        List.append_assoc]
      rfl

/-- One more level takes the lowest digit, and the others write the rest of the number. -/
theorem numbered_concat {levels : List Nat} {P : Array Bit} (l n : Nat) (b : Bool) :
    numbered (levels ++ [l]) P (Nat.bit b n) =
      (numbered levels P n).setIfInBounds l (if b then .one else .zero) := by
  refine Array.ext_getElem? fun k => ?_
  have hsize : (numbered levels P n).size = P.size := Array.size_mapIdx
  rw [Array.getElem?_setIfInBounds, hsize, numbered, numbered, Array.getElem?_mapIdx,
    Array.getElem?_mapIdx, List.reverse_concat]
  by_cases hk : l = k
  · subst hk
    rw [if_pos rfl, List.idxOf_cons_self, Nat.testBit_bit_zero]
    by_cases hlt : l < P.size
    · rw [if_pos hlt, Array.getElem?_eq_getElem hlt]
      simp
    · rw [if_neg hlt, Array.getElem?_eq_none (by omega)]
      rfl
  · rw [if_neg hk, List.idxOf_cons_ne _ hk, Nat.testBit_bit_succ]
    simp [Ne.symm hk]

theorem numbered_nil {P : Array Bit} {n : Nat} : numbered [] P n = P :=
  Array.ext_getElem? fun k => by
    rw [numbered, Array.getElem?_mapIdx]
    simp

/-- **The settings of a counter are those of the numbers, in order.** -/
theorem settings_eq_map : ∀ {c : List Nat} {P : Array Bit},
    settings c P = (List.range (2 ^ c.length)).map (numbered c.reverse P)
  | [], P => by
      show [P] = [numbered [] P 0]
      rw [numbered_nil]
  | l :: c, P => by
      rw [settings, both, settings_eq_map, List.flatMap_map, List.length_cons, Nat.pow_succ',
        range_double, List.map_flatMap, List.reverse_cons]
      refine congrArg (List.flatMap · _) (funext fun n => ?_)
      rw [List.map_cons, List.map_cons, numbered_concat, numbered_concat]
      rfl

/-- Which bits the digits replace does not matter. -/
theorem numbered_zeroed {levels : List Nat} {P : Array Bit} (hin : ∀ l ∈ levels, l < P.size)
    (n : Nat) : numbered levels (zeroed levels P) n = numbered levels P n := by
  obtain ⟨hsize, hzero, hoff⟩ := zeroed_spec levels hin
  refine Array.ext_getElem? fun k => ?_
  rw [numbered, numbered, Array.getElem?_mapIdx, Array.getElem?_mapIdx]
  by_cases hk : k ∈ levels
  · rw [hzero k hk, Array.getElem?_eq_getElem (hin k hk)]
    simp [hk]
  · rw [hoff k hk]

/-! ## 3. The tuples of a profile -/

theorem spelled_lt {a : Array Bit} : ∀ {levels : List Nat} {acc : Nat},
    spelled a acc levels < (acc + 1) * 2 ^ levels.length
  | [], acc => by
      rw [spelled, List.foldl_nil, List.length_nil]
      omega
  | l :: levels, acc => by
      -- the first digit stands before the others
      show spelled a (2 * acc + if a[l]? = some .one then 1 else 0) levels < _
      refine spelled_lt.trans_le ?_
      rw [List.length_cons, Nat.pow_succ', ← Nat.mul_assoc]
      refine Nat.mul_le_mul_right _ ?_
      split <;> omega

section Profile

variable {care : List Nat} {P : Array Bit} (hin : ∀ l ∈ care, l < P.size)

include hin

theorem fillings_eq_counted : fillings care P = counted care P := by
  have hfree : ∀ l ∈ freeCare care P, l < P.size := fun l hl => hin l (mem_freeCare.mp hl).1
  rw [fillings, settings_eq_map, unset_eq_freeCare, List.reverse_reverse, List.length_reverse,
    counted]
  exact List.map_congr_left fun n _ => numbered_zeroed hfree n

/-- **The settings differ from the profile in the free care levels only**, which are set. -/
theorem mem_counted_iff {a : Array Bit} : a ∈ counted care P ↔ Sets (freeCare care P) P a := by
  rw [← fillings_eq_counted hin, mem_fillings_iff hin, Sets]
  simp only [mem_freeCare, and_imp]

/-- A slot is decoded as its levels are free and cared for in the profile. -/
theorem itemOf_eq_itemAt {a : Array Bit} (ha : a ∈ fillings care P) {levels : List Nat}
    (hnarrow : levels.length ≤ 63) : itemOf a levels = itemAt care P a levels := by
  obtain ⟨_, hset, hkept⟩ := (mem_fillings_iff hin).mp ha
  -- what is free in the assignment was free before, and nobody cared
  have hfree : ∀ l, a[l]? = some .free ↔ P[l]? = some .free ∧ l ∉ care := fun l => by
    by_cases hl : l ∈ care ∧ P[l]? = some .free
    · refine iff_of_false (fun hbit => ?_) fun hnot => hnot.2 hl.1
      rcases hset l hl.1 hl.2 with hbit' | hbit' <;> rw [hbit'] at hbit <;> cases hbit
    · rw [hkept l hl]
      exact ⟨fun hbit => ⟨hbit, fun hcare => hl ⟨hcare, hbit⟩⟩, And.left⟩
  have hdetermined : determined a levels = true ↔
      ¬ ∃ l ∈ levels, P[l]? = some .free ∧ l ∉ care := by
    rw [determined, List.all_eq_true]
    simp only [decide_eq_true_iff, ne_eq, hfree, not_exists, not_and]
  rw [itemOf, itemAt]
  by_cases hdet : determined a levels = true
  · rw [if_pos hdet, if_neg (hdetermined.mp hdet)]
    have hlt : spelled a 0 levels < (0 + 1) * 2 ^ levels.length := spelled_lt
    have hword : 2 ^ levels.length ≤ 2 ^ 63 := Nat.pow_le_pow_right Nat.two_pos hnarrow
    refine Int.bmod_eq_of_le_mul_two ?_ ?_ <;> rw [show twoPow 64 = 2 * 2 ^ 63 by decide] <;> omega
  · rw [if_neg hdet, if_pos (not_not.mp (mt hdetermined.mpr hdet))]

/-- **The tuples of a profile are its block.** -/
theorem expand_eq_block {slots : List (List Nat)} (hnarrow : ∀ levels ∈ slots, levels.length ≤ 63) :
    expand slots care P = block slots care P := by
  rw [expand, block, ← fillings_eq_counted hin]
  refine List.map_congr_left fun a ha => ?_
  rw [tupleOf]
  exact congrArg Tuple.mk (List.map_congr_left fun levels hlevels =>
    itemOf_eq_itemAt hin ha (hnarrow levels hlevels))

end Profile

-- The first slot needs a level that nobody cares for; the last care level counts fastest.
example : block [[1, 3], [0, 1, 2]] [2, 0, 2] #[.free, .one, .free, .free] =
    [⟨[-1, 2]⟩, ⟨[-1, 6]⟩, ⟨[-1, 3]⟩, ⟨[-1, 7]⟩] := by decide

/-! ## 4. All profiles -/

section Profiles

variable {m : Manager} (h : m.Founded) {care : List Nat} (hcare : ∀ l ∈ care, l < m.numVars)
  {e : Edge} (he : m.Holds e)

include h he

theorem tests_range : Tests m (List.range m.numVars) e := fun _ hp s hs =>
  have hpath := isPath_held h he ((mem_paths_iff h he).mp hp) s hs
  List.mem_range.mpr (h.rank_lt hpath.1 hpath.2.1)

include hcare

omit h he in
/-- All fillings, path by path, are those of the profiles. -/
theorem assignments_eq_counted : assignments m care e =
    ((m.paths e).map (profileOf m)).flatMap (counted care) := by
  rw [assignments, List.flatMap_map]
  exact congrArg (List.flatMap · (m.paths e)) (funext fun p =>
    fillings_eq_counted fun l hl => by rw [size_profileOf]; exact hcare l hl)

/-- **There are at most as many tuples as settings of all variables.** With more care levels a block
only grows, and where all levels are cared for, every tuple has settings of its own. -/
theorem length_blocks_le (slots : List (List Nat)) :
    (((m.paths e).map (profileOf m)).flatMap (block slots care)).length ≤ bound m := by
  have hall := length_assignments_le h (fun l hl => List.mem_range.mp hl) he (tests_range h he)
  rw [assignments_eq_counted fun l hl => List.mem_range.mp hl] at hall
  refine le_trans ?_ hall
  rw [List.length_flatMap, List.length_flatMap]
  refine List.sum_le_sum fun P _ => ?_
  rw [block, counted, counted, List.length_map, List.length_map, List.length_map,
    List.length_range, List.length_range]
  exact Nat.pow_le_pow_right Nat.two_pos
    (length_freeCare_le fun l hl => List.mem_range.mpr (hcare l hl))

end Profiles

/-- An edge asks for care levels only where those of all variables that matter to it are. -/
theorem tests_of_matters {m : Manager} (h : m.WellFormed) {e : Edge} (he : m.Holds e)
    {care : List Nat} (hmatters : ∀ v, m.Matters e v → m.order.levelAt v ∈ care) :
    Tests m care e := by
  refine tests_of_dependsOn h
    (V := (Finset.range (m.numVars + 1)).filter (m.order.levelAt · ∈ care))
    (fun v hv => (Finset.mem_filter.mp hv).2) he (dependsOn_of_matters h he fun v hv => ?_)
  exact Finset.mem_filter.mpr ⟨Finset.mem_range.mpr
    (Nat.lt_succ_of_le (hv.allocated h.toFounded he).2), hmatters v hv⟩

/-- **A cursor lists the blocks of the profiles.** Over any slots of at most 63 levels and any care
levels, shared or repeated, the tuples of an edge of a well-formed manager are those of its
profiles, in order, each profile with one tuple for every setting of the care levels that it leaves
free. The settings come once each, in the order of the numbers that they write, and a slot is marked
exactly where one of its levels is free and not cared for. Where all levels that matter to the edge
are cared for, the settings of all profiles are the assignments of the care levels that satisfy it,
each once. -/
theorem lists_blocks {m : Manager} (h : m.WellFormed) {f : Edge} (hf : m.Holds f)
    {slots : List (List Nat)} {care : List Nat}
    (hslots : ∀ levels ∈ slots, levels.length ≤ 63 ∧ ∀ l ∈ levels, l < m.numVars)
    (hcare : ∀ l ∈ care, l < m.numVars) :
    ∃ Ps, Lists (PathWalk.next m) Ps (.start m f) ∧
      Lists (next m) (Ps.flatMap (block slots care)) (start m f slots care) ∧
      (start m f slots care).toList m none = .ok (Ps.flatMap (block slots care)) ∧
      (∀ P ∈ Ps, (freeCare care P).Nodup ∧
        (∀ l, l ∈ freeCare care P ↔ l ∈ care ∧ P[l]? = some .free) ∧
        (counted care P).Nodup ∧ (∀ a, a ∈ counted care P ↔ Sets (freeCare care P) P a) ∧
        ∀ a, ∀ levels ∈ slots, itemAt care P a levels = Tuple.indeterminate ↔
          ∃ l ∈ levels, P[l]? = some .free ∧ l ∉ care) ∧
      ((∀ v, m.Matters f v → m.order.levelAt v ∈ care) →
        (Ps.flatMap (counted care)).Nodup ∧ ∀ a, a ∈ Ps.flatMap (counted care) ↔
          Filled m care a ∧ m.eval (spread m a) f = true) := by
  have hsize : ∀ P ∈ (m.paths f).map (profileOf m), P.size = m.numVars := fun P hP => by
    obtain ⟨p, _, rfl⟩ := List.mem_map.mp hP
    exact size_profileOf
  have hin : ∀ P ∈ (m.paths f).map (profileOf m), ∀ l ∈ care, l < P.size := fun P hP l hl => by
    rw [hsize P hP]
    exact hcare l hl
  have hwalk := PathWalk.lists_start h hf
  have hlist := lists_expand (c := .start m f slots care) hwalk rfl hsize
    (fun levels hlevels => (hslots levels hlevels).2) hcare
  have hblocks : ((m.paths f).map (profileOf m)).flatMap (expand slots care) =
      ((m.paths f).map (profileOf m)).flatMap (block slots care) := List.flatMap_congr fun P hP =>
    expand_eq_block (hin P hP) fun levels hlevels => (hslots levels hlevels).1
  refine ⟨_, hwalk, hblocks ▸ hlist, ?_, fun P hP => ?_, fun hmatters => ?_⟩
  · exact toList_eq (hblocks ▸ hlist) (length_blocks_le h.toFounded hcare hf slots) none
  · refine ⟨nodup_freeCare, fun l => mem_freeCare, ?_, fun a => ?_, fun a levels _ =>
      itemAt_eq_indeterminate_iff⟩
    · exact fillings_eq_counted (hin P hP) ▸ nodup_fillings (hin P hP)
    · exact mem_counted_iff (hin P hP)
  · have htests := tests_of_matters h hf hmatters
    rw [← assignments_eq_counted hcare]
    exact ⟨nodup_assignments h.toFounded hcare hf htests,
      fun a => mem_assignments_iff h.toFounded hcare hf htests⟩

/-- Two slots that share a level, and care levels of which one is repeated, over the disjunction of
two variables. -/
theorem lists_blocks_disjunction : ∃ (m : Manager) (Ps : List (Array Bit)),
    Reached m [⟨3⟩, ⟨2⟩, .one, .zero] ∧ m.WellFormed ∧ m.Holds ⟨3⟩ ∧
    (∀ levels ∈ [[1, 0], [1]], levels.length ≤ 63 ∧ ∀ l ∈ levels, l < m.numVars) ∧
    (∀ l ∈ [1, 0, 1], l < m.numVars) ∧ (∀ v, m.Matters ⟨3⟩ v → m.order.levelAt v ∈ [1, 0, 1]) ∧
    Lists (next m) (Ps.flatMap (block [[1, 0], [1]] [1, 0, 1]))
      (start m ⟨3⟩ [[1, 0], [1]] [1, 0, 1]) ∧
    (Ps.flatMap (counted [1, 0, 1])).Nodup ∧ ∀ a, a ∈ Ps.flatMap (counted [1, 0, 1]) ↔
      Filled m [1, 0, 1] a ∧ m.eval (spread m a) ⟨3⟩ = true := by
  obtain ⟨m, r, hvars, _⟩ := reached_disjunction
  have h := r.wellFormed.1
  have hf : m.Holds ⟨3⟩ := r.wellFormed.2 ⟨3⟩ List.mem_cons_self
  have hslots : ∀ levels ∈ [[1, 0], [1]], levels.length ≤ 63 ∧ ∀ l ∈ levels, l < m.numVars := by
    rw [hvars]
    decide
  have hcare : ∀ l ∈ [1, 0, 1], l < m.numVars := by
    rw [hvars]
    decide
  have hmatters : ∀ v, m.Matters ⟨3⟩ v → m.order.levelAt v ∈ [1, 0, 1] := fun v hv => by
    have hlt := h.order.levelAt_lt (hv.allocated h.toFounded hf)
    have hlt : m.order.levelAt v < 2 := hlt.trans_eq hvars
    simp only [List.mem_cons]
    omega
  obtain ⟨Ps, _, hlist, _, _, hsettings⟩ := lists_blocks h hf hslots hcare
  exact ⟨m, Ps, r, h, hf, hslots, hcare, hmatters, hlist, hsettings hmatters⟩

end Factbase.Diagram.Cursor
