import Factbase.Proofs.Diagram.Choice
import Factbase.Proofs.Relation.Encoding

/-!
# Ranges of indices

* `makes_belowFrom`: the comparison of a slot's number with a size, bit by bit from the least
  significant one. What the bits done so far amount to is compared with the same bits of the size;
* `Layout.Inside`: every index of a tuple is below the size of its domain;
* `Layout.Sound.makes_inRange`: **exactly the indices below the size of the slot's domain**;
* `Layout.Sound.makes_inDomains`: **exactly the tuples of such indices.**
-/

namespace Factbase.Relation.Layout

open Diagram

/-- One more bit of a comparison. -/
theorem below_step {size bits n : Nat} (hn : n < 2 ^ bits) (b : Bool) :
    decide (b.toNat * 2 ^ bits + n < size % 2 ^ (bits + 1)) =
      if size.testBit bits then (if b then decide (n < size % 2 ^ bits) else true)
      else (if b then false else decide (n < size % 2 ^ bits)) := by
  have hs := Nat.mod_lt size (Nat.two_pow_pos bits)
  rw [mod_twoPow_succ]
  cases size.testBit bits <;> cases b <;>
    simp only [Bool.toNat_true, Bool.toNat_false, if_true, Bool.false_eq_true, if_false,
      decide_eq_decide, decide_eq_true_iff, decide_eq_false_iff_not] <;> omega

/-- **The comparison of the bits still to come, behind those that are done.** -/
theorem makes_belowFrom (size : Nat) : ∀ (vars done : List Nat) {below : Edge}
    {m : Manager}, m.WellFormed → m.Holds below → (∀ v ∈ vars, m.order.Allocated v) →
    (∀ ρ, m.eval ρ below = decide (number ρ done < size % 2 ^ done.length)) →
    Manager.Makes (belowFrom size done.length below vars) m fun ρ =>
      decide (number ρ (vars.reverse ++ done) < size % 2 ^ (vars.reverse ++ done).length)
  | [], done, below, m, h, hb, _, hval => (Manager.makes_pure h hb).congr hval
  | v :: vars, done, below, m, h, hb, hv, hval => by
      rw [belowFrom, List.reverse_cons, List.append_assoc, List.singleton_append]
      refine (Manager.makes_mkVar h (hv v List.mem_cons_self)).bind fun x m₁ n₁ hx hxval => ?_
      have hb₁ := n₁.holds hb
      have hvars₁ : ∀ w ∈ vars, m₁.order.Allocated w := fun w hw => by
        rw [n₁.2.order]
        exact hv w (List.mem_cons_of_mem _ hw)
      have step : ∀ ρ, decide (number ρ (v :: done) < size % 2 ^ (v :: done).length) =
          if size.testBit done.length then (if ρ v then m.eval ρ below else true)
          else (if ρ v then false else m.eval ρ below) := fun ρ => by
        rw [number_cons, List.length_cons, below_step number_lt, hval]
      by_cases hbit : size.testBit done.length = true
      · rw [if_pos hbit]
        refine (Manager.makes_ite n₁.1 hx hb₁ n₁.1.holds_one).bind fun r m₂ n₂ hr hrval => ?_
        refine makes_belowFrom size vars (v :: done) n₂.1 hr (by rwa [n₂.2.order]) fun ρ => ?_
        rw [hrval, hxval, n₁.eval_eq h hb, Manager.eval_one, step, if_pos hbit]
      · rw [if_neg hbit]
        refine (Manager.makes_ite n₁.1 hx n₁.1.holds_zero hb₁).bind fun r m₂ n₂ hr hrval => ?_
        refine makes_belowFrom size vars (v :: done) n₂.1 hr (by rwa [n₂.2.order]) fun ρ => ?_
        rw [hrval, hxval, n₁.eval_eq h hb, Manager.eval_zero, step, if_neg hbit]

/-- Every index of the tuple is below the size of its domain. -/
def Inside (l : Layout) (t : List Nat) : Prop :=
  ∀ (slot index : Nat), t[slot]? = some index → index < l.sizes[slot]?.getD 0

theorem all_range_iff {l : Layout} {ρ : Assignment} :
    ((List.range l.arity).all fun slot =>
      decide (number ρ (l.vars slot) < l.sizes[slot]?.getD 0)) = true ↔ l.Inside (l.read ρ) := by
  rw [List.all_eq_true]
  unfold Inside read vars
  constructor
  · intro h slot index hindex
    rw [List.getElem?_map, Option.map_eq_some_iff] at hindex
    obtain ⟨block, hblock, rfl⟩ := hindex
    obtain ⟨hslot, _⟩ := List.getElem?_eq_some_iff.mp hblock
    have hlt := of_decide_eq_true (h slot (List.mem_range.mpr hslot))
    rwa [hblock] at hlt
  · intro h slot hslot
    have hblock := List.getElem?_eq_getElem (List.mem_range.mp hslot)
    refine decide_eq_true ?_
    rw [hblock]
    exact h slot _ (by rw [List.getElem?_map, hblock]; rfl)

section Ranges

variable {l : Layout} {m : Manager} (hl : l.Sound m) (h : m.WellFormed)

include hl h

/-- **Exactly the indices below the size of the slot's domain.** -/
theorem Sound.makes_inRange (slot : Nat) : Manager.Makes (l.inRange slot) m fun ρ =>
    decide (number ρ (l.vars slot) < l.sizes[slot]?.getD 0) := by
  unfold inRange
  by_cases hfull : twoPow (l.width slot) ≤ l.sizes[slot]?.getD 0
  · rw [if_pos hfull]
    refine (Manager.makes_pure h h.holds_one).congr fun ρ => ?_
    rw [Manager.eval_one, decide_eq_true (Nat.lt_of_lt_of_le number_lt hfull)]
  · rw [if_neg hfull]
    have hvars : ∀ v ∈ l.vars slot, m.order.Allocated v := fun v hv => by
      unfold vars at hv
      cases hget : l.slots[slot]? with
      | none => rw [hget] at hv; exact absurd hv List.not_mem_nil
      | some vs => rw [hget] at hv; exact hl.allocated (List.mem_of_getElem? hget) hv
    refine (makes_belowFrom (l.sizes[slot]?.getD 0) (l.vars slot).reverse [] h h.holds_zero
      (fun v hv => hvars v (List.mem_reverse.mp hv)) fun ρ => ?_).congr fun ρ => ?_
    · rw [Manager.eval_zero, decide_eq_false (by simp [Nat.mod_one])]
    · rw [List.reverse_reverse, List.append_nil,
        Nat.mod_eq_of_lt (show _ < 2 ^ (l.vars slot).length from Nat.not_le.mp hfull)]

/-- **Exactly the tuples of indices below the sizes of the domains.** -/
theorem Sound.makes_inDomains : Manager.Makes l.inDomains m fun ρ =>
    (List.range l.arity).all fun slot =>
      decide (number ρ (l.vars slot) < l.sizes[slot]?.getD 0) := by
  unfold inDomains
  have loop := Ends.foldlM
    (f := fun f slot => do Manager.conj f (← l.inRange slot)) (i := fun rest r m' => m.Next m' ∧
      m'.Holds r ∧ ∀ ρ, (m'.eval ρ r && rest.all fun slot =>
        decide (number ρ (l.vars slot) < l.sizes[slot]?.getD 0)) =
        (List.range l.arity).all fun slot =>
          decide (number ρ (l.vars slot) < l.sizes[slot]?.getD 0))
    (fun slot rest r m' ⟨n, hr, hval⟩ => by
      refine Ends.bind ((hl.next n).makes_inRange n.1 slot) fun e m₁ ⟨n₁, he, heval⟩ => ?_
      refine (Manager.makes_conj n₁.1 (n₁.holds hr) he).mono fun r' m₂ ⟨n₂, hr', hval'⟩ =>
        ⟨n.trans (n₁.trans n₂), hr', fun ρ => ?_⟩
      have hboth := (hval' ρ).trans
        (congrArg₂ (· && ·) (n₁.eval_eq n.1 hr ρ) (heval ρ))
      rw [← hval ρ, List.all_cons, ← Bool.and_assoc]
      exact congrArg (· && _) hboth)
    (List.range l.arity) .one m ⟨.refl h, h.holds_one, fun ρ => Bool.true_and _⟩
  refine loop.mono fun r m' ⟨n, hr, hval⟩ => ⟨n, hr, fun ρ => ?_⟩
  have := hval ρ
  rwa [List.all_nil, Bool.and_true] at this

end Ranges

end Factbase.Relation.Layout
