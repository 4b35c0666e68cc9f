import Factbase.Diagram.Profile
import Factbase.Proofs.Diagram.Paths
import Factbase.Proofs.Outcome

/-!
# The walk over the paths

The walk stands at the end of a trail, the decisions of its current path with the last one first.

* `At m w t e`: the profile and both stacks of the walk are those of a trail to an edge;
* `rest m t`: the paths that come behind a trail;
* `descend_spec`, `backtrack_spec`: **the walk goes on to the first of these, or there is none**;
* `On.goes`, `goes_start`: the same of a call, from a path or before the first one;
* `lists_start`: **the walk lists the profiles of all paths, in order, and then nothing.**
-/

namespace Factbase.Diagram.PathWalk

open Manager

/-! ## 1. Profiles -/

/-- What a path asks of a level. -/
def bitAt (m : Manager) (p : List (Edge × Bool)) (l : Nat) : Bit :=
  if p.any fun s => s.2 && m.rank s.1 == l then .one
  else if p.any fun s => !s.2 && m.rank s.1 == l then .zero
  else .free

/-- The profile of a path. -/
def profileOf (m : Manager) (p : List (Edge × Bool)) : Array Bit :=
  ((List.range m.numVars).map (bitAt m p)).toArray

section Bits

variable {m : Manager} {t : List (Edge × Bool)} {s : Edge × Bool} {l : Nat}

theorem size_profileOf : (profileOf m t).size = m.numVars := by simp [profileOf]

theorem getElem?_profileOf (hl : l < m.numVars) : (profileOf m t)[l]? = some (bitAt m t l) := by
  simp [profileOf, hl]

theorem bitAt_reverse : bitAt m t.reverse l = bitAt m t l := by
  simp only [bitAt, List.any_reverse]

/-- A decision says nothing about other levels. -/
theorem bitAt_cons_of_ne (hl : m.rank s.1 ≠ l) : bitAt m (s :: t) l = bitAt m t l := by
  simp only [bitAt, List.any_cons, beq_eq_false_iff_ne.mpr hl, Bool.and_false, Bool.false_or]

/-- Decisions at other levels do not count. -/
theorem any_eq_false (hl : ∀ s ∈ t, m.rank s.1 ≠ l) (b : Edge × Bool → Bool) :
    (t.any fun s => b s && m.rank s.1 == l) = false :=
  List.any_eq_false.mpr fun s hs => by
    rw [beq_eq_false_iff_ne.mpr (hl s hs), Bool.and_false]
    exact Bool.false_ne_true

theorem bitAt_append (hl : ∀ s ∈ t, m.rank s.1 ≠ l) (p : List (Edge × Bool)) :
    bitAt m (p ++ t) l = bitAt m p l := by
  rw [bitAt, List.any_append, List.any_append, any_eq_false hl (·.2), any_eq_false hl fun s => !s.2,
    Bool.or_false, Bool.or_false, ← bitAt]

/-- A level that no decision tests is free. -/
theorem bitAt_free (hl : ∀ s ∈ t, m.rank s.1 ≠ l) : bitAt m t l = .free :=
  bitAt_append hl []

/-- A decision sets its own level. -/
theorem bitAt_cons_self (hl : ∀ s' ∈ t, m.rank s'.1 ≠ m.rank s.1) :
    bitAt m (s :: t) (m.rank s.1) = if s.2 then .one else .zero := by
  rw [bitAt, List.any_cons, List.any_cons, any_eq_false hl (·.2), beq_self_eq_true]
  cases s.2 <;> rfl

end Bits

/-! ## 2. Trails -/

/-- The decisions lead from the root to an edge, the last one in front. -/
def Trail (m : Manager) (root : Edge) : List (Edge × Bool) → Edge → Prop
  | [], e => e = root
  | (f, b) :: t, e => f.isTerminal = false ∧ e = m.childOf f b ∧ Trail m root t f

/-- The edges that were left through their low branch. -/
def owing (t : List (Edge × Bool)) : List Edge :=
  t.filterMap fun (e, b) => if b then none else some e

/-- The edges that were left through their high branch. -/
def taken (t : List (Edge × Bool)) : List Edge :=
  t.filterMap fun (e, b) => if b then some e else none

/-- The paths behind a trail: those through the high branches that are still owing, the deepest one
first. -/
def rest (m : Manager) : List (Edge × Bool) → List (List (Edge × Bool))
  | [] => []
  | (_, true) :: t => rest m t
  | (e, false) :: t =>
    (m.paths (m.highOf e)).map (fun q => t.reverse ++ (e, true) :: q) ++ rest m t

/-- The walk stands at an edge, behind a trail. Bits below the edge may be left over from earlier
paths. -/
structure At (m : Manager) (w : PathWalk) (t : List (Edge × Bool)) (e : Edge) : Prop where
  started : w.started = true
  size : w.profile.size = m.numVars
  bits : ∀ l < m.rank e, w.profile[l]? = some (bitAt m t l)
  pending : w.pendingHigh = owing t
  active : w.inHigh = taken t

section Trails

variable {m : Manager} (h : m.Founded) {root : Edge} (hroot : m.Holds root)

include h hroot

/-- The edges of a trail are stored decisions above the edge that is reached. -/
theorem Trail.held : ∀ {t : List (Edge × Bool)} {e : Edge}, Trail m root t e → m.Holds e ∧
    ∀ s ∈ t, m.Holds s.1 ∧ s.1.isTerminal = false ∧ m.rank s.1 < m.rank e
  | [], _, ht => ⟨ht ▸ hroot, fun _ hs => absurd hs List.not_mem_nil⟩
  | (f, b) :: t, e, ⟨hf, he, ht⟩ => by
      obtain ⟨hheld, hall⟩ := Trail.held ht
      obtain ⟨hchild, hbelow⟩ := childOf_held h hheld hf b
      rw [he]
      refine ⟨hchild, List.forall_mem_cons.mpr ⟨⟨hheld, hf, hbelow⟩, fun s hs => ?_⟩⟩
      obtain ⟨hs₁, hs₂, hs₃⟩ := hall s hs
      exact ⟨hs₁, hs₂, hs₃.trans hbelow⟩

end Trails

/-! ## 3. Single steps -/

section Steps

variable {m : Manager} (h : m.Founded) {w : PathWalk} (hsize : w.profile.size = m.numVars)
  {e : Edge} (he : m.Holds e)

include h hsize he

theorem levelIn_eq : levelIn m w e = .ok (m.rank e) := by
  unfold levelIn
  rw [h.level?_eq he]
  cases ht : e.isTerminal with
  | true =>
      rw [rank_of_terminal ht, ← hsize]
      rfl
  | false => rfl

omit h hsize he in
/-- Freeing a range of levels. -/
theorem freed_spec (P : Array Bit) (first : Nat) : ∀ count : Nat,
    ((List.range' first count).foldl (fun p i => p.setIfInBounds i .free) P).size = P.size ∧
    ∀ l, ((List.range' first count).foldl (fun p i => p.setIfInBounds i .free) P)[l]? =
      if first ≤ l ∧ l < first + count ∧ l < P.size then some .free else P[l]?
  | 0 => ⟨rfl, fun l => by rw [if_neg (by omega)]; rfl⟩
  | count + 1 => by
      obtain ⟨ihsize, ih⟩ := freed_spec P first count
      rw [List.range'_concat, List.foldl_append, Nat.one_mul]
      refine ⟨by rw [List.foldl_cons, List.foldl_nil, Array.size_setIfInBounds, ihsize],
        fun l => ?_⟩
      rw [List.foldl_cons, List.foldl_nil, Array.getElem?_setIfInBounds, ihsize, ih]
      by_cases hl : first + count = l
      · subst hl
        by_cases hlt : first + count < P.size
        · rw [if_pos rfl, if_pos hlt, if_pos (by omega)]
        · rw [if_pos rfl, if_neg hlt, if_neg (by omega), Array.getElem?_eq_none (by omega)]
      · rw [if_neg hl]
        refine if_congr ?_ rfl rfl
        omega

/-- **Skipping levels frees them.** -/
theorem skipTo_spec {first : Nat} (hle : first ≤ m.rank e) (hmax : m.rank e ≤ m.numVars) :
    ∃ P, skipTo m w first e = .ok { w with profile := P } ∧ P.size = m.numVars ∧
      (∀ l < first, P[l]? = w.profile[l]?) ∧
      ∀ l, first ≤ l → l < m.rank e → P[l]? = some .free := by
  obtain ⟨hfsize, hbits⟩ := freed_spec w.profile first (m.rank e - first)
  refine ⟨_, ?_, hfsize.trans hsize, fun l hl => ?_, fun l hl hl' => ?_⟩
  · unfold skipTo
    rw [levelIn_eq h hsize he]
    show (if _ then _ else _) = _
    rw [if_neg (by omega)]
    rfl
  · rw [hbits, if_neg (by omega)]
  · rw [hbits, if_pos (by omega)]

end Steps

section Turns

variable {m : Manager} (h : m.WellFormed) {root : Edge} (hroot : m.Holds root) {w : PathWalk}
  {t : List (Edge × Bool)} {e : Edge} (ht : Trail m root t e) (hw : At m w t e)

include h hroot ht hw

/-- The profile behind a branch, whatever becomes of the stacks. -/
theorem turn_spec (hnode : e.isTerminal = false) (b : Bool) (pending active : List Edge) :
    ∃ P₁ P₂, setBit w (m.rank e) (if b then .one else .zero) = .ok { w with profile := P₁ } ∧
      skipTo m ⟨w.root, w.started, P₁, pending, active⟩ (m.rank e + 1) (m.childOf e b) =
        .ok ⟨w.root, w.started, P₂, pending, active⟩ ∧
      P₂.size = m.numVars ∧
      ∀ l < m.rank (m.childOf e b), P₂[l]? = some (bitAt m ((e, b) :: t) l) := by
  obtain ⟨he, htrail⟩ := ht.held h.toFounded hroot
  obtain ⟨hchild, hbelow⟩ := childOf_held h.toFounded he hnode b
  have hmax := h.rank_le hchild
  have hlt : m.rank e < w.profile.size := by
    rw [hw.size]
    omega
  obtain ⟨P₂, hskip, hsize, habove, hfree⟩ := skipTo_spec h.toFounded
    (show (PathWalk.mk w.root w.started (w.profile.setIfInBounds (m.rank e)
      (if b then .one else .zero)) pending active).profile.size = m.numVars by
        rw [Array.size_setIfInBounds]; exact hw.size) hchild
    (show m.rank e + 1 ≤ m.rank (m.childOf e b) from hbelow) hmax
  refine ⟨_, P₂, if_pos hlt, hskip, hsize, fun l hl => ?_⟩
  rcases Nat.lt_trichotomy l (m.rank e) with hl' | rfl | hl'
  · rw [habove l (by omega), Array.getElem?_setIfInBounds_ne (by omega), hw.bits l hl',
      bitAt_cons_of_ne (show m.rank e ≠ l by omega)]
  · rw [habove _ (Nat.lt_succ_self _), Array.getElem?_setIfInBounds_self_of_lt hlt,
      bitAt_cons_self fun s hs => Nat.ne_of_lt (htrail s hs).2.2]
  · rw [hfree l hl' hl, bitAt_free]
    exact List.forall_mem_cons.mpr ⟨Nat.ne_of_lt hl', fun s hs =>
      Nat.ne_of_lt ((htrail s hs).2.2.trans hl')⟩

theorem goLow_spec (hnode : e.isTerminal = false) : ∃ w',
    goLow m w e (m.lowOf e) (m.rank e) = .ok w' ∧ At m w' ((e, false) :: t) (m.lowOf e) := by
  obtain ⟨P₁, P₂, hset, hskip, hsize, hbits⟩ :=
    turn_spec h hroot ht hw hnode false (e :: w.pendingHigh) w.inHigh
  refine ⟨⟨w.root, w.started, P₂, e :: w.pendingHigh, w.inHigh⟩, ?_, hw.started, hsize, hbits,
    congrArg (e :: ·) hw.pending, hw.active⟩
  unfold goLow
  rw [show setBit w (m.rank e) .zero = _ from hset]
  exact hskip

theorem goHigh_spec (hnode : e.isTerminal = false) : ∃ w',
    goHigh m w e (m.highOf e) (m.rank e) = .ok w' ∧ At m w' ((e, true) :: t) (m.highOf e) := by
  obtain ⟨P₁, P₂, hset, hskip, hsize, hbits⟩ :=
    turn_spec h hroot ht hw hnode true w.pendingHigh (e :: w.inHigh)
  refine ⟨⟨w.root, w.started, P₂, w.pendingHigh, e :: w.inHigh⟩, ?_, hw.started, hsize, hbits,
    hw.pending, congrArg (e :: ·) hw.active⟩
  unfold goHigh
  rw [show setBit w (m.rank e) .one = _ from hset]
  exact hskip

end Turns

/-! ## 4. Down to true -/

section Down

variable {m : Manager} (h : m.Founded) {w w' : PathWalk} (hsize : w.profile.size = m.numVars)
  {e : Edge} (he : m.Holds e) (hnode : e.isTerminal = false) {steps : Nat}

include h hsize he hnode

theorem descend_low (hlow : m.lowOf e ≠ .zero)
    (hgo : goLow m w e (m.lowOf e) (m.rank e) = .ok w') :
    descend m (steps + 1) w e = descend m steps w' (m.lowOf e) := by
  rw [descend, hnode, if_neg Bool.false_ne_true, levelIn_eq h hsize he]
  show (m.low e >>= _) = _
  rw [h.low_eq he hnode]
  show (if m.lowOf e ≠ .zero then _ else _) = _
  rw [if_pos hlow]
  show (goLow m w e (m.lowOf e) (m.rank e) >>= _) = _
  rw [hgo]
  rfl

theorem descend_high (hlow : m.lowOf e = .zero)
    (hgo : goHigh m w e (m.highOf e) (m.rank e) = .ok w') :
    descend m (steps + 1) w e = descend m steps w' (m.highOf e) := by
  rw [descend, hnode, if_neg Bool.false_ne_true, levelIn_eq h hsize he]
  show (m.low e >>= _) = _
  rw [h.low_eq he hnode]
  show (if m.lowOf e ≠ .zero then _ else _) = _
  rw [if_neg (not_not.mpr hlow)]
  show (m.high e >>= _) = _
  rw [h.high_eq he hnode]
  show (goHigh m w e (m.highOf e) (m.rank e) >>= _) = _
  rw [hgo]
  rfl

end Down

/-- The walk went on from an edge to the first path, and the others come behind it. -/
def Arrives (m : Manager) (root : Edge) (t : List (Edge × Bool)) (e : Edge)
    (w' : PathWalk) : Prop :=
  ∃ q qs, m.paths e = q :: qs ∧ Trail m root (q.reverse ++ t) .one ∧ At m w' (q.reverse ++ t) .one ∧
    qs.map (t.reverse ++ ·) ++ rest m t = rest m (q.reverse ++ t)

section Descent

variable {m : Manager} (h : m.WellFormed) {root : Edge} (hroot : m.Holds root)
  {t : List (Edge × Bool)} {e : Edge} {w : PathWalk}

theorem Arrives.low (he : m.Holds e) (hnode : e.isTerminal = false) (h : m.Founded)
    (ha : Arrives m root ((e, false) :: t) (m.lowOf e) w) : Arrives m root t e w := by
  obtain ⟨q, qs, hpaths, htrail, hw, hrest⟩ := ha
  have hcomm : ((e, false) :: q).reverse ++ t = q.reverse ++ (e, false) :: t := by simp
  refine ⟨(e, false) :: q, qs.map ((e, false) :: ·) ++ (m.paths (m.highOf e)).map ((e, true) :: ·),
    ?_, hcomm ▸ htrail, hcomm ▸ hw, ?_⟩
  · rw [paths_node h he hnode, hpaths, List.map_cons, List.cons_append]
  · rw [hcomm, ← hrest, rest, List.map_append, List.map_map, List.map_map, List.append_assoc]
    simp [Function.comp_def]

theorem Arrives.high (he : m.Holds e) (hnode : e.isTerminal = false) (h : m.Founded)
    (hlow : m.lowOf e = .zero) (ha : Arrives m root ((e, true) :: t) (m.highOf e) w) :
    Arrives m root t e w := by
  obtain ⟨q, qs, hpaths, htrail, hw, hrest⟩ := ha
  have hcomm : ((e, true) :: q).reverse ++ t = q.reverse ++ (e, true) :: t := by simp
  refine ⟨(e, true) :: q, qs.map ((e, true) :: ·), ?_, hcomm ▸ htrail, hcomm ▸ hw, ?_⟩
  · rw [paths_node h he hnode, hlow, paths_zero, hpaths, List.map_nil, List.nil_append,
      List.map_cons]
  · rw [hcomm, ← hrest, rest, List.map_map]
    simp [Function.comp_def]

include h hroot

/-- **The descent from an edge that is not false arrives.** -/
theorem descend_spec : ∀ (steps : Nat) {w : PathWalk} {t : List (Edge × Bool)} {e : Edge},
    Trail m root t e → At m w t e → e ≠ .zero → m.numVars < m.rank e + steps →
    ∃ w', descend m steps w e = .ok w' ∧ Arrives m root t e w' := by
  intro steps
  induction steps with
  | zero =>
      intro w t e ht _ _ hlt
      have := h.rank_le (ht.held h.toFounded hroot).1
      omega
  | succ steps ih =>
      intro w t e ht hw hzero hlt
      obtain ⟨he, _⟩ := ht.held h.toFounded hroot
      cases hnode : e.isTerminal with
      | true =>
          obtain rfl : e = .one := (Edge.isTerminal_iff.mp hnode).resolve_right hzero
          exact ⟨w, rfl, [], [], rfl, ht, hw, rfl⟩
      | false =>
          by_cases hlow : m.lowOf e = .zero
          · have hhigh : m.highOf e ≠ .zero := fun hhigh =>
              h.lowOf_ne_highOf he hnode (hlow.trans hhigh.symm)
            have hbelow := h.rank_highOf he hnode
            obtain ⟨w₁, hgo, hw₁⟩ := goHigh_spec h hroot ht hw hnode
            obtain ⟨w', run, ha⟩ := ih (t := (e, true) :: t) (e := m.highOf e)
              ⟨hnode, rfl, ht⟩ hw₁ hhigh (by omega)
            rw [descend_high h.toFounded hw.size he hnode hlow hgo]
            exact ⟨w', run, ha.high he hnode h.toFounded hlow⟩
          · have hbelow := h.rank_lowOf he hnode
            obtain ⟨w₁, hgo, hw₁⟩ := goLow_spec h hroot ht hw hnode
            obtain ⟨w', run, ha⟩ := ih (t := (e, false) :: t) (e := m.lowOf e)
              ⟨hnode, rfl, ht⟩ hw₁ hlow (by omega)
            rw [descend_low h.toFounded hw.size he hnode hlow hgo]
            exact ⟨w', run, ha.low he hnode h.toFounded⟩

end Descent

/-! ## 5. Back to the next high branch -/

section Back

variable {m : Manager} (h : m.WellFormed) {root : Edge} (hroot : m.Holds root)

include h hroot

/-- The edges below a level are dropped, the taken ones above it stay. -/
theorem dropBelow_spec {w : PathWalk} (hsize : w.profile.size = m.numVars)
    {t : List (Edge × Bool)} {e : Edge} (ht : Trail m root t e) : ∀ {extra : List Edge},
    (∀ x ∈ extra, m.Holds x ∧ m.rank e ≤ m.rank x) →
    dropBelow m w (m.rank e) (extra ++ taken t) = .ok (taken t)
  | [], _ => by
      rw [List.nil_append]
      cases htaken : taken t with
      | nil => rfl
      | cons x stack =>
          have hmem : x ∈ taken t := by
            rw [htaken]
            exact List.mem_cons_self
          obtain ⟨s, hs, hx⟩ := List.mem_filterMap.mp hmem
          obtain rfl : s.1 = x := by
            obtain ⟨f, b⟩ := s
            cases b with
            | false => cases hx
            | true => exact Option.some.inj hx
          obtain ⟨hheld, _, habove⟩ := (ht.held h.toFounded hroot).2 s hs
          rw [dropBelow, levelIn_eq h.toFounded hsize hheld]
          exact if_pos habove
  | x :: extra, hextra => by
      obtain ⟨⟨hheld, hbelow⟩, hextra⟩ := List.forall_mem_cons.mp hextra
      rw [List.cons_append, dropBelow, levelIn_eq h.toFounded hsize hheld]
      show (if m.rank x < m.rank e then _ else _) = _
      rw [if_neg (Nat.not_lt.mpr hbelow)]
      exact dropBelow_spec hsize ht hextra

omit hroot in
/-- One step back. -/
theorem backtrack_cons {w : PathWalk} (hsize : w.profile.size = m.numVars) {f : Edge}
    (hf : m.Holds f) (hnode : f.isTerminal = false) {pending active : List Edge}
    (hdrop : dropBelow m w (m.rank f) w.inHigh = .ok active) :
    backtrack m (f :: pending) w =
      if m.highOf f = .zero then
        backtrack m pending { w with pendingHigh := pending, inHigh := active }
      else do
        return (← goHigh m { w with pendingHigh := pending, inHigh := active } f (m.highOf f)
          (m.rank f), some (m.highOf f)) := by
  rw [backtrack, levelIn_eq h.toFounded hsize hf]
  show (dropBelow m w (m.rank f) w.inHigh >>= _) = _
  rw [hdrop]
  show (m.high f >>= _) = _
  rw [h.high_eq hf hnode]
  rfl

/-- **Where a high branch is owing, the walk turns into it; else it is at its end.** -/
theorem backtrack_spec : ∀ {t : List (Edge × Bool)} {e : Edge} {w : PathWalk} (extra : List Edge),
    Trail m root t e → w.started = true → w.profile.size = m.numVars →
    (∀ l < m.rank e, w.profile[l]? = some (bitAt m t l)) → w.inHigh = extra ++ taken t →
    (∀ x ∈ extra, m.Holds x ∧ m.rank e ≤ m.rank x) →
    (rest m t = [] ∧
      backtrack m (owing t) w = .ok ({ w with pendingHigh := [], inHigh := [] }, none)) ∨
    ∃ w' t' e', backtrack m (owing t) w = .ok (w', some e') ∧ Trail m root t' e' ∧ At m w' t' e' ∧
      e' ≠ .zero ∧ rest m t = (m.paths e').map (t'.reverse ++ ·) ++ rest m t' := by
  intro t
  induction t with
  | nil => exact fun _ _ _ _ _ _ _ => Or.inl ⟨rfl, rfl⟩
  | cons s t ih =>
      intro e w extra ⟨hnode, he, ht⟩ hstarted hsize hbits hactive hextra
      obtain ⟨f, b⟩ := s
      obtain ⟨hf, hall⟩ := ht.held h.toFounded hroot
      have hbelow : m.rank f < m.rank e := by
        rw [he]
        exact (childOf_held h.toFounded hf hnode b).2
      have hbits' : ∀ l < m.rank f, w.profile[l]? = some (bitAt m t l) := fun l hl => by
        rw [hbits l (hl.trans hbelow), bitAt_cons_of_ne (Nat.ne_of_gt hl)]
      cases b with
      | true =>
          refine ih (extra ++ [f]) ht hstarted hsize hbits' ?_ fun x hx => ?_
          · rw [hactive, List.append_assoc]
            rfl
          · rcases List.mem_append.mp hx with hx | hx
            · exact ⟨(hextra x hx).1, hbelow.le.trans (hextra x hx).2⟩
            · rw [List.mem_singleton.mp hx]
              exact ⟨hf, le_rfl⟩
      | false =>
          have hdrop : dropBelow m w (m.rank f) w.inHigh = .ok (taken t) := by
            rw [hactive]
            exact dropBelow_spec h hroot hsize ht fun x hx =>
              ⟨(hextra x hx).1, hbelow.le.trans (hextra x hx).2⟩
          have hw : At m { w with pendingHigh := owing t, inHigh := taken t } t f :=
            ⟨hstarted, hsize, hbits', rfl, rfl⟩
          rw [show owing ((f, false) :: t) = f :: owing t from rfl,
            backtrack_cons h hsize hf hnode hdrop]
          by_cases hhigh : m.highOf f = .zero
          · rw [if_pos hhigh, rest, hhigh, paths_zero, List.map_nil, List.nil_append]
            exact ih [] ht hstarted hsize hbits' rfl fun x hx => absurd hx List.not_mem_nil
          · obtain ⟨w', hgo, hw'⟩ := goHigh_spec h hroot ht hw hnode
            rw [if_neg hhigh, hgo]
            refine Or.inr ⟨w', (f, true) :: t, m.highOf f, rfl, ⟨hnode, rfl, ht⟩, hw', hhigh, ?_⟩
            rw [rest, rest]
            simp

end Back

/-! ## 6. The walk -/

/-- The walk stands at the end of a path. -/
structure On (m : Manager) (root : Edge) (w : PathWalk) (p : List (Edge × Bool)) : Prop where
  trail : Trail m root p.reverse .one
  spot : At m w p.reverse .one

/-- The walk is at its end. -/
structure Over (w : PathWalk) : Prop where
  started : w.started = true
  pending : w.pendingHigh = []
  active : w.inHigh = []

/-- The next call goes on to the first one of the paths, with the others behind it, or to the end
where there is none. -/
def Goes (m : Manager) (root : Edge) (w : PathWalk) : List (List (Edge × Bool)) → Prop
  | [] => ∃ w', next m w = .ok (none, w') ∧ Over w'
  | p :: ps => ∃ w', next m w = .ok (some (profileOf m p), w') ∧ On m root w' p ∧
      rest m p.reverse = ps

theorem At.profile_eq {m : Manager} {w : PathWalk} {p : List (Edge × Bool)}
    (hw : At m w p.reverse .one) : w.profile = profileOf m p := by
  refine Array.ext_getElem? fun l => ?_
  by_cases hl : l < m.numVars
  · rw [hw.bits l (by rwa [rank_one]), bitAt_reverse, getElem?_profileOf hl]
  · rw [Array.getElem?_eq_none (by rw [hw.size]; omega),
      Array.getElem?_eq_none (by rw [size_profileOf]; omega)]

/-- A started walk that finds no high branch owing is at its end. -/
theorem next_none {m : Manager} {w w' : PathWalk} (hw : w.started = true)
    (run : backtrack m w.pendingHigh w = .ok (w', none)) : next m w = .ok (none, w') := by
  obtain ⟨root, started, profile, pending, active⟩ := w
  obtain rfl : started = true := hw
  show (backtrack m pending _ >>= _) = _
  rw [run]
  rfl

/-- A started walk that finds one goes on from there. -/
theorem next_some {m : Manager} {w w₁ w₂ : PathWalk} {e : Edge} (hw : w.started = true)
    (run : backtrack m w.pendingHigh w = .ok (w₁, some e))
    (run₂ : descend m (w.profile.size + 2) w₁ e = .ok w₂) :
    next m w = .ok (some w₂.profile, w₂) := by
  obtain ⟨root, started, profile, pending, active⟩ := w
  obtain rfl : started = true := hw
  show (backtrack m pending _ >>= _) = _
  rw [run]
  show (descend m (profile.size + 2) w₁ e >>= _) = _
  rw [run₂]
  rfl

section Walk

variable {m : Manager} (h : m.WellFormed) {root : Edge} (hroot : m.Holds root) {w : PathWalk}

include h hroot

/-- The walk goes on to a path: down from an edge that is not false. -/
theorem descend_next {t : List (Edge × Bool)} {e : Edge} (ht : Trail m root t e) (hw : At m w t e)
    (hzero : e ≠ .zero) : ∃ w' p, descend m (m.numVars + 2) w e = .ok w' ∧
      (m.paths e).map (t.reverse ++ ·) ++ rest m t = p :: rest m p.reverse ∧
      Trail m root p.reverse .one ∧ At m w' p.reverse .one := by
  obtain ⟨w', run, q, qs, hpaths, htrail, hw', hrest⟩ :=
    descend_spec h hroot (m.numVars + 2) ht hw hzero (by omega)
  refine ⟨w', t.reverse ++ q, run, ?_, ?_⟩
  · rw [hpaths, List.map_cons, List.cons_append, hrest]
    simp
  · rw [List.reverse_append, List.reverse_reverse]
    exact ⟨htrail, hw'⟩

omit h hroot in
/-- A walk that is at its end stays there. -/
theorem Over.next_eq (hw : Over w) : next m w = .ok (none, w) := by
  obtain ⟨root, started, profile, pending, active⟩ := w
  obtain rfl : pending = [] := hw.pending
  obtain rfl : active = [] := hw.active
  exact next_none hw.started rfl

omit h hroot in
theorem Over.goes (hw : Over w) : Goes m root w [] := ⟨w, hw.next_eq, hw⟩

/-- **From a path the walk goes on to those that come behind it.** -/
theorem On.goes {p : List (Edge × Bool)} (hw : On m root w p) :
    Goes m root w (rest m p.reverse) := by
  obtain ⟨htrail, hat⟩ := hw
  rcases backtrack_spec h hroot [] htrail hat.started hat.size hat.bits hat.active
    (fun x hx => absurd hx List.not_mem_nil) with
    ⟨hnil, run⟩ | ⟨w₁, t, e, run, ht₁, hw₁, hzero, hrest⟩
  · rw [← hat.pending] at run
    rw [hnil]
    exact ⟨_, next_none hat.started run, ⟨hat.started, rfl, rfl⟩⟩
  · obtain ⟨w₂, q, run₂, hlist, ht₂, hw₂⟩ := descend_next h hroot ht₁ hw₁ hzero
    rw [← hat.pending] at run
    rw [← hat.size] at run₂
    rw [hrest, hlist]
    refine ⟨w₂, ?_, ⟨ht₂, hw₂⟩, rfl⟩
    rw [← hw₂.profile_eq]
    exact next_some hat.started run run₂

/-- **The walk starts with all paths.** -/
theorem goes_start : Goes m root (start m root) (m.paths root) := by
  by_cases hzero : root = .zero
  · rw [hzero, paths_zero]
    exact ⟨{ start m .zero with started := true }, rfl, rfl, rfl, rfl⟩
  · have hsize : (Array.replicate m.numVars Bit.free).size = m.numVars := Array.size_replicate
    obtain ⟨P, hskip, hP, _, hfree⟩ := skipTo_spec h.toFounded
      (show (PathWalk.mk root true (.replicate m.numVars .free) [] []).profile.size = m.numVars
        from hsize) hroot (Nat.zero_le _) (h.rank_le hroot)
    have hw : At m ⟨root, true, P, [], []⟩ [] root :=
      ⟨rfl, hP, fun l hl => hfree l (Nat.zero_le l) hl, rfl, rfl⟩
    obtain ⟨w', p, run, hlist, ht', hw'⟩ := descend_next h hroot (t := []) rfl hw hzero
    rw [rest, List.append_nil] at hlist
    have hpaths : m.paths root = p :: rest m p.reverse := by
      rw [← hlist]
      simp
    rw [hpaths]
    refine ⟨w', ?_, ⟨ht', hw'⟩, rfl⟩
    rw [← hw'.profile_eq]
    show (if root = .zero then _ else _) = _
    rw [if_neg hzero]
    show (skipTo m ⟨root, true, .replicate m.numVars .free, [], []⟩ 0 root >>= _) = _
    rw [hskip]
    show (descend m ((Array.replicate m.numVars Bit.free).size + 2) _ root >>= _) = _
    rw [hsize, run]
    rfl

/-- A walk lists the profiles of the paths that it goes on to, and then nothing. -/
theorem Goes.lists {ps : List (List (Edge × Bool))} (hw : Goes m root w ps) :
    Lists (next m) (ps.map (profileOf m)) w := by
  induction ps generalizing w with
  | nil =>
      obtain ⟨w', run, hover⟩ := hw
      exact ⟨w', run, hover.next_eq⟩
  | cons p ps ih =>
      obtain ⟨w', run, hon, hrest⟩ := hw
      exact ⟨w', run, ih (hrest ▸ hon.goes h hroot)⟩

/-- **The walk lists the profiles of all paths, in order, and then nothing.** -/
theorem lists_start : Lists (next m) ((m.paths root).map (profileOf m)) (start m root) :=
  (goes_start h hroot).lists h hroot

end Walk

end Factbase.Diagram.PathWalk
