import Factbase.Diagram.Ite
import Factbase.Proofs.Diagram.Building

/-!
# If-then-else is right

* `Triple.value`: what a triple asks for under an assignment;
* `settled?_value`, `absorb_value`, `raise_value`, `regular_value`: **no rule that picks the
  normal triple changes what is asked for**, up to the complement that `regular` announces, and
  none adds to the three indices;
* `makes_iteWithin`: the descent. It is an induction on the depth, which the sum of the three
  indices bounds, since every step down takes at least one edge to a child;
* `makes_ite` and `makes_conj`, `makes_disj`, `makes_exclusive`, `makes_diff`, `makes_conjAll`:
  **the operations denote what their names say**;
* `ends_meets`: whether an edge and what is asked for are true together somewhere.
-/

namespace Factbase.Diagram

open Manager

/-! ## 1. Triples -/

namespace Triple

/-- What a triple asks for. -/
def value (m : Manager) (ρ : Assignment) (t : Triple) : Bool :=
  if m.eval ρ t.cond then m.eval ρ t.yes else m.eval ρ t.no

/-- All three edges lead to stored nodes. -/
structure Held (m : Manager) (t : Triple) : Prop where
  cond : m.Holds t.cond
  yes : m.Holds t.yes
  no : m.Holds t.no

/-- A bound on the depth of the three diagrams together. -/
def weight (t : Triple) : Nat := t.cond.index + t.yes.index + t.no.index

/-- The level of the topmost of the three edges. -/
def top (m : Manager) (t : Triple) : Nat := min (m.rank t.cond) (min (m.rank t.yes) (m.rank t.no))

/-- The answer to a triple that needs no work. -/
def quick? (t : Triple) : Option Edge :=
  match t.settled? with
  | some answer => some answer
  | none =>
    match t.absorb.settled? with
    | some answer => some answer
    | none => if t.absorb.isComplement then some (-t.cond) else none

section Rules

variable {m : Manager} (h : m.Founded) {t : Triple} (ht : t.Held m) {ρ : Assignment}

include h ht

omit h in
/-- **A settled triple has the value of its answer**, which is one of its edges. -/
theorem settled?_value {a : Edge} (ha : t.settled? = some a) :
    m.Holds a ∧ ∀ ρ, m.eval ρ a = t.value m ρ := by
  unfold settled? at ha
  split at ha
  · rename_i hc
    obtain rfl := Option.some.inj ha
    exact ⟨ht.yes, fun ρ => by rw [value, hc, eval_one, if_pos rfl]⟩
  · split at ha
    · rename_i hc
      obtain rfl := Option.some.inj ha
      exact ⟨ht.no, fun ρ => by rw [value, hc, eval_zero, if_neg Bool.false_ne_true]⟩
    · split at ha
      · rename_i hsame
        obtain rfl := Option.some.inj ha
        exact ⟨ht.yes, fun ρ => by rw [value, ← hsame, ite_self]⟩
      · split at ha
        · rename_i hsame
          obtain rfl := Option.some.inj ha
          refine ⟨ht.cond, fun ρ => ?_⟩
          rw [value, hsame.1, hsame.2, eval_one, eval_zero]
          cases m.eval ρ t.cond <;> rfl
        · cases ha

omit h ht in
/-- A triple that is not settled has a condition that tests a variable. -/
theorem not_terminal_of_not_settled (hs : t.settled? = none) : t.cond.isTerminal = false := by
  cases hc : t.cond.isTerminal with
  | false => rfl
  | true =>
      unfold settled? at hs
      rcases Edge.isTerminal_iff.mp hc with hone | hzero
      · rw [if_pos hone] at hs
        cases hs
      · rw [if_neg (by rw [hzero]; decide), if_pos hzero] at hs
        cases hs

omit h ht in
theorem isComplement_value (hc : t.isComplement = true) (ρ : Assignment) :
    t.value m ρ = !m.eval ρ t.cond := by
  simp only [isComplement, Bool.and_eq_true, beq_iff_eq] at hc
  rw [value, hc.1, hc.2, eval_one, eval_zero]
  cases m.eval ρ t.cond <;> rfl

omit ht in
/-- A branch may be replaced by what it is known to be. -/
theorem branch_value {c e known : Edge} (hc : m.Holds c) (hk : m.Holds known)
    (hkc : m.eval ρ c = m.eval ρ known) : m.eval ρ (branch c e known) = m.eval ρ e := by
  unfold branch
  split
  · rename_i he
    rw [he, hkc]
  · split
    · rename_i he
      rw [he, h.eval_neg hc, h.eval_neg hk, hkc]
    · rfl

omit h ht in
theorem branch_held {c e known : Edge} (he : m.Holds e) (hk : m.Holds known)
    (hleaf : known.index = 1) :
    m.Holds (branch c e known) ∧ (branch c e known).index ≤ e.index := by
  have he1 : 1 ≤ e.index := Nat.one_le_iff_ne_zero.mpr he.1
  unfold branch
  split
  · exact ⟨hk, by omega⟩
  · split
    · exact ⟨holds_neg.mpr hk, by rw [Edge.index_neg]; omega⟩
    · exact ⟨he, Nat.le_refl _⟩

theorem absorb_held : t.absorb.Held m ∧ t.absorb.weight ≤ t.weight := by
  obtain ⟨hyes, hyes'⟩ := branch_held (c := t.cond) ht.yes h.holds_one rfl
  obtain ⟨hno, hno'⟩ := branch_held (c := t.cond) ht.no h.holds_zero rfl
  refine ⟨⟨ht.cond, hyes, hno⟩, ?_⟩
  show t.cond.index + (branch t.cond t.yes .one).index + (branch t.cond t.no .zero).index ≤ _
  unfold weight
  omega

/-- **Branches that repeat the condition may be replaced by constants.** -/
theorem absorb_value (ρ : Assignment) : t.absorb.value m ρ = t.value m ρ := by
  show (if m.eval ρ t.cond then m.eval ρ (branch t.cond t.yes .one)
    else m.eval ρ (branch t.cond t.no .zero)) = _
  unfold value
  cases hc : m.eval ρ t.cond with
  | true => exact branch_value h ht.cond h.holds_one hc
  | false => exact branch_value h ht.cond h.holds_zero hc

/-- A raised triple has the same edges, up to complements. -/
theorem raise_held (i j k : Nat) : (t.raise i j k).Held m ∧
    (t.raise i j k).weight = t.weight ∧ (t.raise i j k).top m = t.top m := by
  unfold raise weight top
  split
  · rename_i hc
    refine ⟨⟨ht.no, h.holds_one, ht.cond⟩, ?_, ?_⟩ <;> simp only [hc.1] <;> omega
  · split
    · rename_i hc
      refine ⟨⟨ht.yes, ht.cond, h.holds_zero⟩, ?_, ?_⟩ <;> simp only [hc.1] <;> omega
    · split
      · rename_i hc
        refine ⟨⟨holds_neg.mpr ht.yes, holds_neg.mpr ht.cond, h.holds_one⟩, ?_, ?_⟩ <;>
          simp only [hc.1, Edge.index_neg, rank_neg] <;> omega
      · split
        · rename_i hc
          refine ⟨⟨holds_neg.mpr ht.no, h.holds_zero, holds_neg.mpr ht.cond⟩, ?_, ?_⟩ <;>
            simp only [hc.1, Edge.index_neg, rank_neg] <;> omega
        · exact ⟨ht, rfl, rfl⟩

/-- **Condition and branch may be swapped**, whatever the levels are. -/
theorem raise_value (i j k : Nat) (ρ : Assignment) :
    (t.raise i j k).value m ρ = t.value m ρ := by
  unfold raise value
  split
  · rename_i hc
    simp only [hc.1, eval_one]
    cases m.eval ρ t.cond <;> cases m.eval ρ t.no <;> rfl
  · split
    · rename_i hc
      simp only [hc.1, eval_zero]
      cases m.eval ρ t.cond <;> cases m.eval ρ t.yes <;> rfl
    · split
      · rename_i hc
        simp only [hc.1, eval_one, h.eval_neg ht.cond, h.eval_neg ht.yes]
        cases m.eval ρ t.cond <;> cases m.eval ρ t.yes <;> rfl
      · split
        · rename_i hc
          simp only [hc.1, eval_zero, h.eval_neg ht.cond, h.eval_neg ht.no]
          cases m.eval ρ t.cond <;> cases m.eval ρ t.no <;> rfl
        · rfl

omit h in
theorem regularCond_held : t.regularCond.Held m ∧ t.regularCond.weight = t.weight ∧
    t.regularCond.top m = t.top m := by
  unfold regularCond weight top
  split
  · refine ⟨⟨holds_neg.mpr ht.cond, ht.no, ht.yes⟩, ?_, ?_⟩ <;>
      simp only [Edge.index_neg, rank_neg] <;> omega
  · exact ⟨ht, rfl, rfl⟩

theorem regularCond_value (ρ : Assignment) : t.regularCond.value m ρ = t.value m ρ := by
  unfold regularCond value
  split
  · simp only [h.eval_neg ht.cond]
    cases m.eval ρ t.cond <;> rfl
  · rfl

omit h ht in
theorem regular_eq : t.regular = if t.regularCond.yes.negated then
    (⟨t.regularCond.cond, -t.regularCond.yes, -t.regularCond.no⟩, true)
    else (t.regularCond, false) := rfl

omit h in
theorem regular_held : t.regular.1.Held m ∧ t.regular.1.weight = t.weight ∧
    t.regular.1.top m = t.top m := by
  obtain ⟨hc, hw, htop⟩ := regularCond_held ht
  rw [← hw, ← htop, regular_eq]
  split
  · refine ⟨⟨hc.cond, holds_neg.mpr hc.yes, holds_neg.mpr hc.no⟩, ?_, ?_⟩
    · simp only [weight, Edge.index_neg]
    · simp only [top, rank_neg]
  · exact ⟨hc, rfl, rfl⟩

/-- **The regular triple asks for the same, up to the announced complement.** -/
theorem regular_value (ρ : Assignment) :
    (t.regular.2 ^^ t.regular.1.value m ρ) = t.value m ρ := by
  obtain ⟨hc, _, _⟩ := regularCond_held ht
  rw [← regularCond_value h ht, regular_eq]
  split
  · simp only [value, h.eval_neg hc.yes, h.eval_neg hc.no, Bool.true_xor]
    cases m.eval ρ t.regularCond.cond <;> exact Bool.not_not _
  · exact Bool.false_xor _

/-- **An answer that needs no work has the value that is asked for.** -/
theorem quick?_value {r : Edge} (hs : t.quick? = some r) :
    m.Holds r ∧ ∀ ρ, m.eval ρ r = t.value m ρ := by
  unfold quick? at hs
  cases hs₀ : t.settled? with
  | some a =>
      rw [hs₀] at hs
      obtain rfl := Option.some.inj hs
      exact settled?_value ht hs₀
  | none =>
  rw [hs₀] at hs
  obtain ⟨hab, _⟩ := absorb_held h ht
  cases hs₁ : t.absorb.settled? with
  | some a =>
      rw [hs₁] at hs
      obtain rfl := Option.some.inj hs
      obtain ⟨hr, hval⟩ := settled?_value hab hs₁
      exact ⟨hr, fun ρ => (hval ρ).trans (absorb_value h ht ρ)⟩
  | none =>
  rw [hs₁] at hs
  by_cases hc : t.absorb.isComplement = true
  · rw [if_pos hc] at hs
    obtain rfl := Option.some.inj hs
    refine ⟨holds_neg.mpr ht.cond, fun ρ => ?_⟩
    rw [h.eval_neg ht.cond, ← absorb_value h ht, isComplement_value hc]
    rfl
  · rw [if_neg hc] at hs
    cases hs

omit h ht in
/-- A triple that needs work is not settled, neither before nor behind absorption. -/
theorem absorb_not_settled (hs : t.quick? = none) :
    t.settled? = none ∧ t.absorb.settled? = none ∧ t.absorb.isComplement = false := by
  unfold quick? at hs
  cases hs₀ : t.settled? with
  | some a => rw [hs₀] at hs; cases hs
  | none =>
      rw [hs₀] at hs
      cases hs₁ : t.absorb.settled? with
      | some a => rw [hs₁] at hs; cases hs
      | none =>
          rw [hs₁] at hs
          cases hc : t.absorb.isComplement with
          | false => exact ⟨rfl, rfl, rfl⟩
          | true => rw [hc, if_pos rfl] at hs; cases hs

end Rules

end Triple

namespace Manager

/-! ## 2. Cofactors -/

section Cofactors

variable {m : Manager} (h : m.Founded) {e : Edge} (he : m.Holds e) {v : Nat}
  (hv : m.order.Allocated v)

include h hv

/-- A leaf stands below every variable. -/
theorem Founded.not_terminal_of_rank_le (hr : m.rank e ≤ m.order.levelAt v) :
    e.isTerminal = false := by
  cases ht : e.isTerminal with
  | false => rfl
  | true =>
      have hlt : m.order.levelAt v < m.numVars := h.order.levelAt_lt hv
      rw [rank_of_terminal ht] at hr
      omega

include he

theorem Founded.cofactorsOf_held :
    (m.Holds (m.cofactorsOf e v).1 ∧ m.Holds (m.cofactorsOf e v).2) ∧
    (m.order.levelAt v ≤ m.rank e → m.order.levelAt v < m.rank (m.cofactorsOf e v).1 ∧
      m.order.levelAt v < m.rank (m.cofactorsOf e v).2) := by
  unfold cofactorsOf
  by_cases hlt : m.order.levelAt v < m.rank e
  · rw [if_pos hlt]
    exact ⟨⟨he, he⟩, fun _ => ⟨hlt, hlt⟩⟩
  · rw [if_neg hlt]
    have ht := h.not_terminal_of_rank_le hv (Nat.not_lt.mp hlt)
    have hl := h.rank_lowOf he ht
    have hh := h.rank_highOf he ht
    exact ⟨⟨h.holds_lowOf he ht, h.holds_highOf he ht⟩, fun _ =>
      ⟨by dsimp only; omega, by dsimp only; omega⟩⟩

/-- **An edge decides on the variable between its cofactors.** -/
theorem Founded.eval_cofactorsOf (hle : m.order.levelAt v ≤ m.rank e) (ρ : Assignment) :
    m.eval ρ e =
      if ρ v then m.eval ρ (m.cofactorsOf e v).2 else m.eval ρ (m.cofactorsOf e v).1 := by
  unfold cofactorsOf
  by_cases hlt : m.order.levelAt v < m.rank e
  · rw [if_pos hlt, ite_self]
  · rw [if_neg hlt]
    have ht := h.not_terminal_of_rank_le hv (Nat.not_lt.mp hlt)
    rw [h.eval_node he ht, h.varOf_eq he ht hv (by omega)]

/-- Cofactors are stored no later than the edge, and before it where the variable is its own. -/
theorem Founded.index_cofactorsOf :
    ((m.cofactorsOf e v).1.index ≤ e.index ∧ (m.cofactorsOf e v).2.index ≤ e.index) ∧
    (m.rank e ≤ m.order.levelAt v →
      (m.cofactorsOf e v).1.index < e.index ∧ (m.cofactorsOf e v).2.index < e.index) := by
  unfold cofactorsOf
  by_cases hlt : m.order.levelAt v < m.rank e
  · rw [if_pos hlt]
    exact ⟨⟨Nat.le_refl _, Nat.le_refl _⟩, fun _ => by omega⟩
  · rw [if_neg hlt]
    have ht := h.not_terminal_of_rank_le hv (Nat.not_lt.mp hlt)
    have hl := h.index_lowOf_lt he ht
    have hh := h.index_highOf_lt he ht
    exact ⟨⟨hl.le, hh.le⟩, fun _ => ⟨hl, hh⟩⟩

end Cofactors

/-! ## 3. The descent -/

/-- The triple where a variable is false. -/
def lowTriple (m : Manager) (t : Triple) (v : Nat) : Triple :=
  ⟨(m.cofactorsOf t.cond v).1, (m.cofactorsOf t.yes v).1, (m.cofactorsOf t.no v).1⟩

/-- The triple where a variable is true. -/
def highTriple (m : Manager) (t : Triple) (v : Nat) : Triple :=
  ⟨(m.cofactorsOf t.cond v).2, (m.cofactorsOf t.yes v).2, (m.cofactorsOf t.no v).2⟩

theorem Grows.lowTriple_eq {m m' : Manager} (g : m.Grows m') {t : Triple} (ht : t.Held m)
    (v : Nat) : m'.lowTriple t v = m.lowTriple t v := by
  rw [lowTriple, g.cofactorsOf_eq ht.cond, g.cofactorsOf_eq ht.yes, g.cofactorsOf_eq ht.no,
    lowTriple]

theorem Grows.highTriple_eq {m m' : Manager} (g : m.Grows m') {t : Triple} (ht : t.Held m)
    (v : Nat) : m'.highTriple t v = m.highTriple t v := by
  rw [highTriple, g.cofactorsOf_eq ht.cond, g.cofactorsOf_eq ht.yes, g.cofactorsOf_eq ht.no,
    highTriple]

section Descent

variable {m : Manager} (h : m.WellFormed) {t : Triple} (ht : t.Held m) {v : Nat}
  (hv : m.order.Allocated v) (top : m.order.levelAt v = t.top m)

include h ht hv

theorem held_lowTriple : (m.lowTriple t v).Held m :=
  ⟨(h.cofactorsOf_held ht.cond hv).1.1, (h.cofactorsOf_held ht.yes hv).1.1,
    (h.cofactorsOf_held ht.no hv).1.1⟩

theorem held_highTriple : (m.highTriple t v).Held m :=
  ⟨(h.cofactorsOf_held ht.cond hv).1.2, (h.cofactorsOf_held ht.yes hv).1.2,
    (h.cofactorsOf_held ht.no hv).1.2⟩

include top

/-- **Every step down takes at least one edge to a child.** -/
theorem weight_lowTriple_lt :
    (m.lowTriple t v).weight < t.weight ∧ (m.highTriple t v).weight < t.weight := by
  obtain ⟨⟨hc, hc'⟩, hcs⟩ := h.index_cofactorsOf ht.cond hv
  obtain ⟨⟨hy, hy'⟩, hys⟩ := h.index_cofactorsOf ht.yes hv
  obtain ⟨⟨hn, hn'⟩, hns⟩ := h.index_cofactorsOf ht.no hv
  unfold Triple.top at top
  simp only [Triple.weight, lowTriple, highTriple]
  rcases (by omega : m.rank t.cond ≤ m.order.levelAt v ∨ m.rank t.yes ≤ m.order.levelAt v ∨
    m.rank t.no ≤ m.order.levelAt v) with hr | hr | hr
  · have := hcs hr
    omega
  · have := hys hr
    omega
  · have := hns hr
    omega

theorem value_eq_cofactors (ρ : Assignment) : t.value m ρ =
    if ρ v then (m.highTriple t v).value m ρ else (m.lowTriple t v).value m ρ := by
  unfold Triple.top at top
  simp only [Triple.value, lowTriple, highTriple]
  rw [h.eval_cofactorsOf ht.cond hv (by omega), h.eval_cofactorsOf ht.yes hv (by omega),
    h.eval_cofactorsOf ht.no hv (by omega)]
  cases ρ v <;> rfl

theorem levelAt_lt_top_lowTriple : m.order.levelAt v < (m.lowTriple t v).top m ∧
    m.order.levelAt v < (m.highTriple t v).top m := by
  unfold Triple.top at top
  have hc := (h.cofactorsOf_held ht.cond hv).2 (by omega)
  have hy := (h.cofactorsOf_held ht.yes hv).2 (by omega)
  have hn := (h.cofactorsOf_held ht.no hv).2 (by omega)
  simp only [Triple.top, lowTriple, highTriple]
  omega

end Descent

section Split

variable {m : Manager} (h : m.WellFormed) {t : Triple} (ht : t.Held m)

include h ht

/-- A triple does not depend on the variables above it. -/
theorem value_update {w : Nat} (hw : m.order.levelAt w < t.top m) (ρ : Assignment) (b : Bool) :
    t.value m (Function.update ρ w b) = t.value m ρ := by
  unfold Triple.top at hw
  rw [Triple.value, h.eval_update ht.cond (by omega), h.eval_update ht.yes (by omega),
    h.eval_update ht.no (by omega), Triple.value]

/-- The triple asks for the same in a manager that has grown. -/
theorem Next.value_eq {m' : Manager} (n : m.Next m') (ρ : Assignment) :
    t.value m' ρ = t.value m ρ := by
  rw [Triple.value, n.eval_eq h ht.cond, n.eval_eq h ht.yes, n.eval_eq h ht.no, Triple.value]

omit h in
theorem Next.held {m' : Manager} (n : m.Next m') : t.Held m' :=
  ⟨n.holds ht.cond, n.holds ht.yes, n.holds ht.no⟩

omit h in
theorem Next.top_eq {m' : Manager} (n : m.Next m') : t.top m' = t.top m := by
  rw [Triple.top, n.2.rank_eq ht.cond, n.2.rank_eq ht.yes, n.2.rank_eq ht.no, Triple.top]

/-- What has the value of a triple, now or later, tests no variable above the triple. -/
theorem Next.lt_rank_of_value {m' : Manager} (n : m.Next m') {l : Nat} (hl : l < t.top m)
    (hl' : l < m.numVars) {r : Edge} (hr : m'.Holds r) (same : ∀ ρ, m'.eval ρ r = t.value m ρ) :
    l < m'.rank r :=
  n.1.lt_rank_of_independent hr (by rwa [n.numVars_eq]) fun w hw ρ b => by
    rw [n.2.order] at hw
    rw [same, same, value_update h ht (by omega)]

end Split

/-- The answers to the key of a triple are the edges with its value. -/
theorem asks_choose {m : Manager} (h : m.WellFormed) {t : Triple} (ht : t.Held m) :
    m.Asks (.choose t.cond t.yes t.no) fun ρ => t.value m ρ := by
  intro m' r n
  have ht' := n.held ht
  constructor
  · rintro ⟨_, _, _, hr, hval⟩
    exact ⟨hr, fun ρ => (hval ρ).trans (n.value_eq h ht ρ)⟩
  · rintro ⟨hr, hval⟩
    exact ⟨ht'.cond, ht'.yes, ht'.no, hr, fun ρ => (hval ρ).trans (n.value_eq h ht ρ).symm⟩

/-- **The results for both sides of a triple fit under its topmost variable.** -/
theorem Next.fit_split {m m' : Manager} (n : m.Next m') (h : m.WellFormed) {t : Triple}
    (ht : t.Held m) {v : Nat} (hv : m.order.Allocated v) (top : m.order.levelAt v = t.top m)
    {low high : Edge} (hl : m'.Holds low) (hh : m'.Holds high)
    (hlow : ∀ ρ, m'.eval ρ low = (m.lowTriple t v).value m ρ)
    (hhigh : ∀ ρ, m'.eval ρ high = (m.highTriple t v).value m ρ) :
    m'.order.Allocated v ∧ m'.order.levelAt v < m'.rank low ∧
      m'.order.levelAt v < m'.rank high := by
  obtain ⟨hlt, hlt'⟩ := levelAt_lt_top_lowTriple h ht hv top
  have hlv := h.order.levelAt_lt hv
  rw [n.2.order]
  exact ⟨hv, n.lt_rank_of_value h (held_lowTriple h ht hv) hlt hlv hl hlow,
    n.lt_rank_of_value h (held_highTriple h ht hv) hlt' hlv hh hhigh⟩

/-- Both sides of a triple one level down, and the decision between them. -/
def splitWithin (depth : Nat) (v : Nat) (lower upper : Triple) : Op Edge := do
  let low ← iteWithin depth lower.cond lower.yes lower.no
  let high ← iteWithin depth upper.cond upper.yes upper.no
  mkNode v low high

/-- **A triple is split at its topmost variable**, in this manager or in a later one. -/
theorem makes_splitWithin {depth : Nat} (ih : ∀ {m : Manager} {t : Triple}, m.WellFormed →
      t.Held m → t.weight < depth →
      Makes (iteWithin depth t.cond t.yes t.no) m fun ρ => t.value m ρ)
    {m m' : Manager} (h : m.WellFormed) (n : m.Next m') {t : Triple} (ht : t.Held m)
    (hw : t.weight ≤ depth) {v : Nat} (hv : m.order.Allocated v)
    (top : m.order.levelAt v = t.top m) :
    Makes (splitWithin depth v (m.lowTriple t v) (m.highTriple t v)) m' fun ρ => t.value m ρ := by
  have hlow := held_lowTriple h ht hv
  have hhigh := held_highTriple h ht hv
  obtain ⟨hw₀, hw₁⟩ := weight_lowTriple_lt h ht hv top
  refine (ih n.1 (n.held hlow) (by omega)).bind fun low m₁ n₁ hr₁ hval₁ => ?_
  have n' := n.trans n₁
  refine (ih n'.1 (n'.held hhigh) (by omega)).bind fun high m₂ n₂ hr₂ hval₂ => ?_
  have n'' := n'.trans n₂
  have hval₁ : ∀ ρ, m₂.eval ρ low = (m.lowTriple t v).value m ρ := fun ρ =>
    (n₂.eval_eq n₁.1 hr₁ ρ).trans ((hval₁ ρ).trans (n.value_eq h hlow ρ))
  have hval₂ : ∀ ρ, m₂.eval ρ high = (m.highTriple t v).value m ρ := fun ρ =>
    (hval₂ ρ).trans (n'.value_eq h hhigh ρ)
  obtain ⟨hv₂, below, below'⟩ := n''.fit_split h ht hv top (n₂.holds hr₁) hr₂ hval₁ hval₂
  refine (makes_mkNode n''.1 hv₂ (n₂.holds hr₁) hr₂ below below').congr fun ρ => ?_
  rw [hval₁, hval₂, value_eq_cofactors h ht hv top]

/-- The normal form of a triple, and whether its result has to be complemented. -/
def normal (m : Manager) (t : Triple) : Triple × Bool :=
  (t.absorb.raise (m.rank t.absorb.cond) (m.rank t.absorb.yes) (m.rank t.absorb.no)).regular

section Normal

variable {m : Manager} (h : m.WellFormed) {t : Triple} (ht : t.Held m)

include h ht

theorem normal_held : (m.normal t).1.Held m ∧ (m.normal t).1.weight ≤ t.weight ∧
    (m.normal t).1.top m = t.absorb.top m := by
  obtain ⟨hab, hw⟩ := Triple.absorb_held h.toFounded ht
  obtain ⟨hraised, hw₁, htop₁⟩ := Triple.raise_held h.toFounded hab (m.rank t.absorb.cond)
    (m.rank t.absorb.yes) (m.rank t.absorb.no)
  obtain ⟨hnormal, hw₂, htop₂⟩ := Triple.regular_held hraised
  exact ⟨hnormal, (hw₂.trans hw₁).trans_le hw, htop₂.trans htop₁⟩

/-- **The normal form asks for the same.** -/
theorem normal_value (ρ : Assignment) :
    ((m.normal t).2 ^^ (m.normal t).1.value m ρ) = t.value m ρ := by
  obtain ⟨hab, _⟩ := Triple.absorb_held h.toFounded ht
  obtain ⟨hraised, _, _⟩ := Triple.raise_held h.toFounded hab (m.rank t.absorb.cond)
    (m.rank t.absorb.yes) (m.rank t.absorb.no)
  rw [normal, Triple.regular_value h.toFounded hraised, Triple.raise_value h.toFounded hab,
    Triple.absorb_value h.toFounded ht]

omit h in
/-- **A settled triple is answered at once.** -/
theorem iteWithin_settled {r : Edge} (hs : t.quick? = some r) (depth : Nat) :
    iteWithin (depth + 1) t.cond t.yes t.no m = .ok r m := by
  unfold Triple.quick? at hs
  unfold iteWithin
  cases hs₀ : t.settled? with
  | some a =>
      rw [hs₀] at hs
      obtain rfl := Option.some.inj hs
      simp only [hs₀]
      rfl
  | none =>
  rw [hs₀] at hs
  simp only [hs₀]
  cases hs₁ : t.absorb.settled? with
  | some a =>
      rw [hs₁] at hs
      obtain rfl := Option.some.inj hs
      rfl
  | none =>
  rw [hs₁] at hs
  show (ask (·.complement t.cond) >>= _) m = _
  rw [ask_bind (complement_eq ht.cond)]
  by_cases hc : t.absorb.isComplement = true
  · rw [if_pos hc] at hs ⊢
    obtain rfl := Option.some.inj hs
    rfl
  · rw [if_neg hc] at hs
    cases hs

/-- **Any other triple is looked up in its normal form, or split at its topmost variable.** -/
theorem iteWithin_normal (hs : t.quick? = none) (depth : Nat) :
    ∃ v, m.order.Allocated v ∧ m.order.levelAt v = (m.normal t).1.top m ∧
      iteWithin (depth + 1) t.cond t.yes t.no m =
        memo (.choose (m.normal t).1.cond (m.normal t).1.yes (m.normal t).1.no) (m.normal t).2
          (splitWithin depth v (m.lowTriple (m.normal t).1 v) (m.highTriple (m.normal t).1 v))
          m := by
  obtain ⟨hs₀, hs₁, hc⟩ := Triple.absorb_not_settled hs
  obtain ⟨hab, _⟩ := Triple.absorb_held h.toFounded ht
  obtain ⟨hnormal, _, htop⟩ := normal_held h ht
  have hlt : t.absorb.top m < m.numVars :=
    Nat.lt_of_le_of_lt (Nat.min_le_left _ _)
      (h.rank_lt hab.cond (Triple.not_terminal_of_not_settled hs₁))
  obtain ⟨v, hv, hlevel, hvarAt⟩ := h.order.exists_levelAt hlt
  have hle : m.order.levelAt v = (m.normal t).1.top m := hlevel.trans htop.symm
  refine ⟨v, hv, hle, ?_⟩
  unfold Triple.top at hle
  unfold iteWithin
  simp only [hs₀]
  rw [show t.absorb.settled? = none from hs₁]
  show (ask (·.complement t.cond) >>= _) m = _
  rw [ask_bind (complement_eq ht.cond), if_neg (by rw [hc]; exact Bool.false_ne_true),
    ask_bind (h.level_eq hab.cond), ask_bind (h.level_eq hab.yes), ask_bind (h.level_eq hab.no)]
  refine lookUp_bind_congr fun found cache => ?_
  cases found with
  | some known => rfl
  | none =>
      have hcond := h.cofactors_eq hnormal.cond hv (by omega)
      have hyes := h.cofactors_eq hnormal.yes hv (by omega)
      have hno := h.cofactors_eq hnormal.no hv (by omega)
      refine (ask_bind hvarAt).trans ((ask_bind hcond).trans ((ask_bind hyes).trans
        ((ask_bind hno).trans ?_)))
      rw [splitWithin]
      simp only [bind_assoc]
      rfl

end Normal

/-- **If-then-else within a depth.** -/
theorem makes_iteWithin : ∀ (depth : Nat) {m : Manager} {t : Triple}, m.WellFormed →
    t.Held m → t.weight < depth →
    Makes (iteWithin depth t.cond t.yes t.no) m fun ρ => t.value m ρ := by
  intro depth
  induction depth with
  | zero => exact fun _ _ hlt => absurd hlt (Nat.not_lt_zero _)
  | succ depth ih =>
      intro m t h ht hlt
      cases hs : t.quick? with
      | some r =>
          obtain ⟨hr, hval⟩ := Triple.quick?_value h.toFounded ht hs
          exact ⟨r, m, iteWithin_settled ht hs depth, .refl h, hr, hval⟩
      | none =>
          obtain ⟨v, hv, hlevel, hrun⟩ := iteWithin_normal h ht hs depth
          obtain ⟨hnormal, hw, _⟩ := normal_held h ht
          have made : ∀ m', m.Next m' → Makes (splitWithin depth v (m.lowTriple (m.normal t).1 v)
              (m.highTriple (m.normal t).1 v)) m' fun ρ => (m.normal t).1.value m ρ :=
            fun m' n =>
              makes_splitWithin ih h n hnormal (hw.trans (Nat.le_of_lt_succ hlt)) hv hlevel
          have hmade := makes_memo h (asks_choose h hnormal) made (m.normal t).2
          exact (hmade.congr fun ρ => normal_value h ht ρ).of_run_eq hrun

/-! ## 4. The operations -/

/-- The number of all triples bounds the depth of the descent. -/
theorem weight_lt_fuel {m : Manager} {f g k : Edge} (hf : m.Holds f) (hg : m.Holds g)
    (hk : m.Holds k) : (⟨f, g, k⟩ : Triple).weight <
      (2 * m.numNodes + 3) * (2 * m.numNodes + 3) * (2 * m.numNodes + 3) := by
  have hn : 3 * m.numNodes < (2 * m.numNodes + 3) * (2 * m.numNodes + 3) := by
    have := Nat.mul_le_mul_right (2 * m.numNodes + 3) (show 3 ≤ 2 * m.numNodes + 3 by omega)
    omega
  have hfuel := Nat.lt_of_lt_of_le hn
    (Nat.le_mul_of_pos_right _ (show 0 < 2 * m.numNodes + 3 by omega))
  refine Nat.lt_of_le_of_lt ?_ hfuel
  show f.index + g.index + k.index ≤ _
  have := hf.2
  have := hg.2
  have := hk.2
  omega

section Operations

variable {m : Manager} (h : m.WellFormed) {f g k : Edge} (hf : m.Holds f) (hg : m.Holds g)

include h hf hg

/-- **If-then-else**: the value of `g` where `f` is true, and of `k` where it is false. -/
theorem makes_ite (hk : m.Holds k) :
    Makes (ite f g k) m fun ρ => if m.eval ρ f then m.eval ρ g else m.eval ρ k := by
  unfold ite
  refine ends_bind (a := m) rfl ?_
  exact makes_iteWithin _ (t := ⟨f, g, k⟩) h ⟨hf, hg, hk⟩ (weight_lt_fuel hf hg hk)

/-- **Conjunction.** -/
theorem makes_conj : Makes (conj f g) m fun ρ => m.eval ρ f && m.eval ρ g :=
  (makes_ite h hf hg h.holds_zero).congr fun ρ => by
    rw [eval_zero]
    cases m.eval ρ f <;> rfl

/-- **Disjunction.** -/
theorem makes_disj : Makes (disj f g) m fun ρ => m.eval ρ f || m.eval ρ g :=
  (makes_ite h hf h.holds_one hg).congr fun ρ => by
    rw [eval_one]
    cases m.eval ρ f <;> rfl

/-- **Exclusive disjunction.** -/
theorem makes_exclusive : Makes (exclusive f g) m fun ρ => m.eval ρ f ^^ m.eval ρ g :=
  ends_bind (ask_eq (complement_eq hg)) <|
    (makes_ite h hf (holds_neg.mpr hg) hg).congr fun ρ => by
      rw [h.eval_neg hg]
      cases m.eval ρ f <;> cases m.eval ρ g <;> rfl

/-- **Difference.** -/
theorem makes_diff : Makes (diff f g) m fun ρ => m.eval ρ f && !m.eval ρ g :=
  (makes_ite h hg h.holds_zero hf).congr fun ρ => by
    rw [eval_zero]
    cases m.eval ρ f <;> cases m.eval ρ g <;> rfl

end Operations

/-- **What is asked for is true somewhere where an edge is true, unless their conjunction is the
false edge.** -/
theorem ends_meets {m : Manager} (h : m.WellFormed) {f : Edge} (hf : m.Holds f) {act : Op Edge}
    {value : Assignment → Bool} (hact : Makes act m value) : Ends (do
      let common ← conj f (← act)
      return decide (common ≠ .zero)) m fun found m' =>
        m.Next m' ∧ (found = true ↔ ∃ ρ, m.eval ρ f = true ∧ value ρ = true) := by
  refine Ends.bind hact fun g m₁ ⟨n₁, hg, hval⟩ => ?_
  refine Ends.bind (makes_conj n₁.1 (n₁.holds hf) hg) fun common m₂ ⟨n₂, hcommon, hval'⟩ =>
    ends_pure ⟨n₁.trans n₂, decide_eq_true_iff.trans ?_⟩
  have hboth : ∀ ρ, m₂.eval ρ common = (m.eval ρ f && value ρ) := fun ρ =>
    (hval' ρ).trans (congrArg₂ (· && ·) (n₁.eval_eq h hf ρ) (hval ρ))
  -- an edge that is false everywhere is the false edge
  have hzero : common = .zero ↔ ∀ ρ, m₂.eval ρ common = false :=
    ⟨fun heq ρ => by rw [heq, eval_zero], fun hall =>
      n₂.1.eq_of_eval_eq hcommon n₂.1.holds_zero fun ρ => by rw [hall, eval_zero]⟩
  rw [ne_eq, hzero, not_forall]
  exact exists_congr fun ρ => by rw [Bool.not_eq_false, hboth, Bool.and_eq_true]

/-- **The conjunction of a list.** -/
theorem makes_conjAll {m : Manager} (h : m.WellFormed) {fs : List Edge}
    (hfs : ∀ f ∈ fs, m.Holds f) :
    Makes (conjAll fs) m fun ρ => fs.all fun f => m.eval ρ f := by
  -- what is still to come, together with what is made so far, is what was asked for
  have loop := Ends.foldlM (f := conj) (i := fun rest r m' => m.Next m' ∧ m'.Holds r ∧
      (∀ f ∈ rest, m.Holds f) ∧
      ∀ ρ, (m'.eval ρ r && rest.all fun f => m.eval ρ f) = fs.all fun f => m.eval ρ f)
    (fun f rest r m' ⟨n, hr, hrest, hval⟩ => by
      have hf := hrest f List.mem_cons_self
      refine (makes_conj n.1 hr (n.holds hf)).mono fun r' m'' ⟨n', hr', hval'⟩ =>
        ⟨n.trans n', hr', fun f hf => hrest f (List.mem_cons_of_mem _ hf), fun ρ => ?_⟩
      rw [← hval ρ, List.all_cons, ← Bool.and_assoc, ← n.eval_eq h hf]
      exact congrArg (· && rest.all fun f => m.eval ρ f) (hval' ρ))
    fs .one m ⟨.refl h, h.holds_one, hfs, fun ρ => Bool.true_and _⟩
  refine loop.mono fun r m' ⟨n, hr, _, hval⟩ => ⟨n, hr, fun ρ => ?_⟩
  have := hval ρ
  rwa [List.all_nil, Bool.and_true] at this

end Manager

end Factbase.Diagram
