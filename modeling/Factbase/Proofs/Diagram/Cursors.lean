import Factbase.Proofs.Diagram.Settings
import Factbase.Proofs.Outcome

/-!
# What a cursor lists

* `spelled`, `tupleOf`: the tuple of an assignment;
* `expand`: the tuples of a profile, over all settings of its free care levels;
* `lists_expand`: **a cursor lists the tuples of all profiles, in order, and then nothing**;
* `toList_eq`: so it gives them, or the first part of them where there is a limit.
-/

namespace Factbase.Diagram.Cursor

/-! ## 1. The tuple of an assignment -/

/-- No level is free. -/
def determined (a : Array Bit) (levels : List Nat) : Bool := levels.all fun l => a[l]? ≠ some .free

/-- The number that bits spell behind the number `acc`. -/
def spelled (a : Array Bit) (acc : Nat) (levels : List Nat) : Nat :=
  levels.foldl (fun n l => 2 * n + if a[l]? = some .one then 1 else 0) acc

/-- The item of a slot. -/
def itemOf (a : Array Bit) (levels : List Nat) : Int :=
  if determined a levels then Int.bmod (spelled a 0 levels) (twoPow 64) else Tuple.indeterminate

/-- The tuple of an assignment. -/
def tupleOf (slots : List (List Nat)) (a : Array Bit) : Tuple := ⟨slots.map (itemOf a)⟩

theorem spell_eq {a : Array Bit} : ∀ {levels : List Nat} (acc : Nat), (∀ l ∈ levels, l < a.size) →
    spell a acc levels = .ok (if determined a levels then some (spelled a acc levels) else none)
  | [], _, _ => rfl
  | l :: levels, acc, hin => by
      obtain ⟨hlt, hin⟩ := List.forall_mem_cons.mp hin
      have hget := Array.getElem?_eq_getElem hlt
      rw [spell, determined, spelled, List.all_cons, List.foldl_cons, hget]
      cases hbit : a[l] with
      | zero => exact spell_eq (2 * acc) hin
      | one => exact spell_eq (2 * acc + 1) hin
      | free => rfl

theorem item_eq {a : Array Bit} {levels : List Nat} (hin : ∀ l ∈ levels, l < a.size) :
    item a levels = .ok (itemOf a levels) := by
  rw [item, spell_eq 0 hin, itemOf]
  by_cases hdet : determined a levels = true
  · rw [if_pos hdet, if_pos hdet]
    rfl
  · rw [if_neg hdet, if_neg hdet]
    rfl

theorem decode_eq {c : Cursor} (hin : ∀ levels ∈ c.slots, ∀ l ∈ levels, l < c.assignment.size) :
    c.decode = .ok (tupleOf c.slots c.assignment) := by
  rw [decode, mapM_eq_ok fun levels h => item_eq (hin levels h)]
  rfl

/-! ## 2. The tuples of a profile -/

/-- The tuples of a profile, over all settings of its free care levels. -/
def expand (slots : List (List Nat)) (care : List Nat) (P : Array Bit) : List Tuple :=
  (fillings care P).map (tupleOf slots)

section Listing

variable {m : Manager} {ts : List Tuple} {c : Cursor}

/-- The tuple of the loaded profile comes next. -/
theorem next_loaded (hloaded : c.loaded = true)
    (hin : ∀ levels ∈ c.slots, ∀ l ∈ levels, l < c.assignment.size) :
    c.next m = .ok (some (tupleOf c.slots c.assignment),
      { c with
        assignment := (increment c.counter c.assignment).2
        loaded := (increment c.counter c.assignment).1 }) := by
  rw [next, if_pos hloaded]
  show (c.emit >>= _) = _
  rw [emit, decode_eq hin]
  rfl

/-- **A loaded profile is counted through**, and the rest comes behind it. -/
theorem lists_loaded {bs : List (Array Bit)} (hbs : behind c.counter c.assignment = bs)
    (hloaded : c.loaded = true) (hnodup : c.counter.Nodup)
    (hcounter : ∀ l ∈ c.counter, l < c.assignment.size)
    (hin : ∀ levels ∈ c.slots, ∀ l ∈ levels, l < c.assignment.size)
    (hrest : ∀ a, Lists (next m) ts { c with assignment := a, loaded := false }) :
    Lists (next m) ((c.assignment :: bs).map (tupleOf c.slots) ++ ts) c := by
  induction bs generalizing c with
  | nil =>
      have hcount := behind_eq hnodup hcounter
      have hnext := next_loaded (m := m) hloaded hin
      rw [hbs] at hcount
      cases hmore : (increment c.counter c.assignment).1 with
      | true => rw [hmore] at hcount; cases hcount
      | false =>
          rw [hmore] at hnext
          exact ⟨_, hnext, hrest _⟩
  | cons b bs ih =>
      have hsize : b.size = c.assignment.size :=
        size_of_mem_behind (c := c.counter) (by rw [hbs]; exact List.mem_cons_self)
      have hcount := behind_eq hnodup hcounter
      have hnext := next_loaded (m := m) hloaded hin
      rw [hbs] at hcount
      cases hmore : (increment c.counter c.assignment).1 with
      | false => rw [hmore] at hcount; cases hcount
      | true =>
          rw [hmore, if_pos rfl] at hcount
          obtain ⟨hb, hbehind⟩ := List.cons.inj hcount
          rw [hmore, ← hb] at hnext
          rw [← hb] at hbehind
          refine ⟨_, hnext, ?_⟩
          exact ih (c := { c with assignment := b, loaded := true }) hbehind.symm rfl hnodup
            (hsize ▸ hcounter) (hsize ▸ hin) hrest

/-- A cursor is at its end where its walk is. -/
theorem next_none {walk : PathWalk} (hloaded : c.loaded = false)
    (run : c.walk.next m = .ok (none, walk)) : c.next m = .ok (none, { c with walk }) := by
  rw [next, if_neg (by rw [hloaded]; decide), load, run]
  rfl

/-- A profile is loaded where none is, and its first tuple comes next. -/
theorem next_load {walk : PathWalk} {P a : Array Bit} {k : List Nat} (hloaded : c.loaded = false)
    (run : c.walk.next m = .ok (some P, walk)) (hfix : fixFree c.care P [] = .ok (a, k)) :
    c.next m = next m ⟨walk, c.slots, c.care, a, k, true⟩ := by
  rw [next, hloaded, if_neg Bool.false_ne_true, load, run]
  show ((fixFree c.care P [] >>= _) >>= _) = _
  rw [hfix]
  rfl

/-- **A cursor lists the tuples of all profiles, in order, and then nothing.** -/
theorem lists_expand {n : Nat} {Ps : List (Array Bit)} (hwalk : Lists (PathWalk.next m) Ps c.walk)
    (hloaded : c.loaded = false) (hsize : ∀ P ∈ Ps, P.size = n)
    (hslots : ∀ levels ∈ c.slots, ∀ l ∈ levels, l < n) (hcare : ∀ l ∈ c.care, l < n) :
    Lists (next m) (Ps.flatMap (expand c.slots c.care)) c := by
  induction Ps generalizing c with
  | nil =>
      obtain ⟨walk, run, run'⟩ := hwalk
      exact ⟨_, next_none hloaded run, next_none hloaded run'⟩
  | cons P Ps ih =>
      obtain ⟨walk, run, hwalk⟩ := hwalk
      obtain ⟨rfl, hsize⟩ := List.forall_mem_cons.mp hsize
      have hunset := unset_lt hcare
      obtain ⟨hzsize, hzero, _⟩ := zeroed_spec _ hunset
      have hfix := fixFree_eq [] hcare
      rw [List.append_nil] at hfix
      have hrest : ∀ a k, Lists (next m) (Ps.flatMap (expand c.slots c.care))
          ⟨walk, c.slots, c.care, a, k, false⟩ := fun a k =>
        ih (c := ⟨walk, c.slots, c.care, a, k, false⟩) hwalk rfl hsize hslots hcare
      obtain ⟨c', hnext, hlist⟩ := lists_loaded
        (c := ⟨walk, c.slots, c.care, zeroed (unset c.care P) P, (unset c.care P).reverse, true⟩)
        rfl rfl (List.nodup_reverse.mpr nodup_unset)
        (fun l hl => by rw [hzsize]; exact hunset l (List.mem_reverse.mp hl))
        (by rwa [hzsize]) fun a => hrest a _
      rw [List.flatMap_cons, expand, fillings,
        settings_eq fun l hl => hzero l (List.mem_reverse.mp hl)]
      exact ⟨c', (next_load hloaded run hfix).trans hnext, hlist⟩

/-! ## 3. Taking tuples -/

theorem takeOnto_eq (h : Lists (next m) ts c) (limit : Nat) (found : List Tuple) :
    ∃ c', c.takeOnto m limit found = .ok (found.reverse ++ ts.take limit, c') := by
  induction limit generalizing ts c found with
  | zero => exact ⟨c, by rw [takeOnto, List.take_zero, List.append_nil]⟩
  | succ limit ih =>
      cases ts with
      | nil =>
          obtain ⟨c', run, _⟩ := h
          refine ⟨c', ?_⟩
          rw [List.take_nil, List.append_nil]
          exact bind_eq_ok run rfl
      | cons t ts =>
          obtain ⟨c', run, hrest⟩ := h
          obtain ⟨c'', htake⟩ := ih hrest (t :: found)
          refine ⟨c'', ?_⟩
          rw [List.reverse_cons, List.append_assoc] at htake
          exact bind_eq_ok run htake

/-- **A cursor gives what it lists**, or the first part of it where there is a limit. -/
theorem toList_eq (h : Lists (next m) ts c) (hlen : ts.length ≤ bound m) (limit : Option Nat) :
    c.toList m limit = .ok (limit.elim ts ts.take) := by
  cases limit with
  | none =>
      obtain ⟨c', htake⟩ := takeOnto_eq h (bound m) []
      rw [List.take_of_length_le hlen] at htake
      exact bind_eq_ok htake rfl
  | some limit =>
      obtain ⟨c', htake⟩ := takeOnto_eq h (min limit (bound m)) []
      rw [← List.take_take, List.take_of_length_le hlen] at htake
      exact bind_eq_ok htake rfl

end Listing

end Factbase.Diagram.Cursor
