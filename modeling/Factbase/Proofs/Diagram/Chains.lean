import Factbase.Diagram.Table
import Mathlib.Data.List.Perm.Subperm
import Mathlib.Logic.Function.Basic

/-!
# The chains of a table

A table is read as the list of its values (`Table.values`); what its buckets and links are for is
said by the chains:

* `Table.Linked t start chain`: the links lead from `start` through the indices of `chain`;
* `Table.Chained t chain`: the invariant. Every bucket `b` leads through `chain b`, which lists
  indices of that bucket in increasing order and no value twice, and one cell is always free;
* `put_known`, `put_new`: **a value that some chain has is found, any other one is appended under
  the next index and joins the chain of its bucket.**

No statement depends on the capacity, nor on when the table doubles.
-/

namespace Factbase.Diagram.Table

variable {α : Type}

/-! ## 1. Values by index -/

/-- The stored values; the value of index `i` stands at position `i - 1`. -/
def values (t : Table α) : List α := t.cells.toList.map Cell.value

/-- The value at an index, none for 0 and behind the last index. -/
def stored? (t : Table α) (i : Nat) : Option α :=
  if i = 0 then none else t.values[i - 1]?

@[simp] theorem length_values (t : Table α) : t.values.length = t.size := by
  simp [values, size]

theorem stored?_eq_of_cell {t : Table α} {i : Nat} {cell : Cell α} (hi : i ≠ 0)
    (h : t.cells[i - 1]? = some cell) : t.stored? i = some cell.value := by
  rw [stored?, if_neg hi, values, List.getElem?_map, Array.getElem?_toList, h]
  rfl

theorem cell_of_stored? {t : Table α} {i : Nat} {v : α} (h : t.stored? i = some v) :
    i ≠ 0 ∧ ∃ cell, t.cells[i - 1]? = some cell ∧ cell.value = v := by
  unfold stored? at h
  split at h
  · cases h
  · rename_i hi
    rw [values, List.getElem?_map, Array.getElem?_toList] at h
    obtain ⟨cell, hc, hv⟩ := Option.map_eq_some_iff.mp h
    exact ⟨hi, cell, hc, hv⟩

theorem stored?_le {t : Table α} {i : Nat} {v : α} (h : t.stored? i = some v) :
    i ≠ 0 ∧ i ≤ t.size := by
  obtain ⟨hi, cell, hc, _⟩ := cell_of_stored? h
  obtain ⟨hlt, _⟩ := Array.getElem?_eq_some_iff.mp hc
  exact ⟨hi, by unfold size; omega⟩

theorem exists_stored? {t : Table α} {i : Nat} (h0 : i ≠ 0) (hi : i ≤ t.size) :
    ∃ v, t.stored? i = some v := by
  have hlt : i - 1 < t.values.length := by rw [length_values]; omega
  exact ⟨t.values[i - 1], by rw [stored?, if_neg h0, List.getElem?_eq_getElem hlt]⟩

theorem value_eq_ok {t : Table α} {i : Nat} {v : α} (h : t.stored? i = some v) :
    t.value i = .ok v := by
  obtain ⟨hi, cell, hc, rfl⟩ := cell_of_stored? h
  simp only [value, if_neg hi, hc]

/-! ## 2. Chains -/

/-- The links lead from `start` through the indices of the list, and then to 0. -/
def Linked (t : Table α) : Nat → List Nat → Prop
  | start, [] => start = 0
  | start, i :: is => start = i ∧ i ≠ 0 ∧ ∃ cell, t.cells[i - 1]? = some cell ∧
      t.Linked cell.next is

/-- Links depend on the cells of the chain only. -/
theorem Linked.congr {t u : Table α} : ∀ {is : List Nat} {start : Nat}, t.Linked start is →
    (∀ i ∈ is, u.cells[i - 1]? = t.cells[i - 1]?) → u.Linked start is
  | [], _, h, _ => h
  | i :: is, _, ⟨hs, h0, cell, hc, hl⟩, same => by
      refine ⟨hs, h0, cell, ?_, hl.congr fun j hj => same j (List.mem_cons_of_mem _ hj)⟩
      rw [same i List.mem_cons_self, hc]

/-- A new index linked behind the last one joins the chain. -/
theorem Linked.snoc {t u : Table α} {last new : Nat} {w v : α} (h0 : new ≠ 0)
    (hlast : u.cells[last - 1]? = some ⟨w, new⟩) (hnew : u.cells[new - 1]? = some ⟨v, 0⟩) :
    ∀ {is : List Nat} {start : Nat}, t.Linked start (is ++ [last]) →
      (∀ i ∈ is, u.cells[i - 1]? = t.cells[i - 1]?) → u.Linked start (is ++ [last] ++ [new])
  | [], start, ⟨hs, hl, _, _, _⟩, _ => ⟨hs, hl, ⟨w, new⟩, hlast, rfl, h0, ⟨v, 0⟩, hnew, rfl⟩
  | i :: is, start, ⟨hs, hi, cell, hc, hl⟩, same => by
      refine ⟨hs, hi, cell, ?_, hl.snoc h0 hlast hnew fun j hj =>
        same j (List.mem_cons_of_mem _ hj)⟩
      rw [same i List.mem_cons_self, hc]

theorem Linked.eq_zero_iff {t : Table α} {start : Nat} {is : List Nat} (h : t.Linked start is) :
    start = 0 ↔ is = [] := by
  cases is with
  | nil => exact ⟨fun _ => rfl, fun _ => h⟩
  | cons i is =>
      obtain ⟨hs, h0, _⟩ := h
      exact ⟨fun e => absurd (hs ▸ e) h0, fun e => absurd e (List.cons_ne_nil _ _)⟩

/-- The links of a chain can be followed. -/
theorem next_eq_ok {t : Table α} {i : Nat} {cell : Cell α} (room : t.size < t.capacity)
    (h0 : i ≠ 0) (hc : t.cells[i - 1]? = some cell) : t.next i = .ok cell.next := by
  obtain ⟨hlt, _⟩ := Array.getElem?_eq_some_iff.mp hc
  have hcap : ¬ t.capacity ≤ i := by unfold size at room; omega
  simp only [next, if_neg h0, if_neg hcap, hc]

/-! ## 3. Following a chain -/

section Search

variable [BEq α] [LawfulBEq α] {t : Table α} {v : α}

/-- One step along a chain. -/
theorem follow_succ {i : Nat} {cell : Cell α} (room : t.size < t.capacity) (h0 : i ≠ 0)
    (hc : t.cells[i - 1]? = some cell) (fuel : Nat) :
    (cell.value = v → t.follow v (fuel + 1) i = .ok (.found i)) ∧
    (cell.value ≠ v → cell.next = 0 → t.follow v (fuel + 1) i = .ok (.missing i)) ∧
    (cell.value ≠ v → cell.next ≠ 0 →
      t.follow v (fuel + 1) i = t.follow v fuel cell.next) := by
  have hvalue := value_eq_ok (stored?_eq_of_cell h0 hc)
  have hnext := next_eq_ok room h0 hc
  refine ⟨fun hv => ?_, fun hv hn => ?_, fun hv hn => ?_⟩
  all_goals rw [follow, hvalue]; show (if (cell.value == v) = true then _ else _) = _
  · rw [if_pos (beq_iff_eq.mpr hv)]
    rfl
  · rw [if_neg (fun e => hv (beq_iff_eq.mp e)), hnext]
    exact if_pos hn
  · rw [if_neg (fun e => hv (beq_iff_eq.mp e)), hnext]
    exact if_neg hn

/-- A search along a chain finds an index that holds the value. -/
theorem follow_found (room : t.size < t.capacity) :
    ∀ {is : List Nat} {start : Nat} (fuel : Nat), t.Linked start is → is.length ≤ fuel →
      (∃ i ∈ is, t.stored? i = some v) →
      ∃ i ∈ is, t.stored? i = some v ∧ t.follow v fuel start = .ok (.found i)
  | [], _, _, _, _, ⟨_, hi, _⟩ => absurd hi List.not_mem_nil
  | _ :: _, _, 0, _, hf, _ => absurd hf (by simp)
  | i :: is, start, fuel + 1, ⟨hs, h0, cell, hc, hl⟩, hf, ⟨j, hj, hv⟩ => by
      subst hs
      have hstored := stored?_eq_of_cell h0 hc
      obtain ⟨hit, _, step⟩ := follow_succ (v := v) room h0 hc fuel
      by_cases hheld : cell.value = v
      · exact ⟨start, List.mem_cons_self, by rw [hstored, hheld], hit hheld⟩
      · have hrest : ∃ k ∈ is, t.stored? k = some v := by
          rcases List.mem_cons.mp hj with rfl | hj
          · rw [hstored] at hv
            exact absurd (Option.some.inj hv) hheld
          · exact ⟨j, hj, hv⟩
        have hnext : cell.next ≠ 0 := by
          intro e
          obtain ⟨k, hk, _⟩ := hrest
          rw [hl.eq_zero_iff.mp e] at hk
          exact absurd hk List.not_mem_nil
        obtain ⟨k, hk, hkv, run⟩ :=
          follow_found room fuel hl (by simpa using hf) hrest
        exact ⟨k, List.mem_cons_of_mem _ hk, hkv, (step hheld hnext).trans run⟩

/-- A search along a chain without the value ends at the last index. -/
theorem follow_missing (room : t.size < t.capacity) {last : Nat} :
    ∀ {is : List Nat} {start fuel : Nat}, t.Linked start (is ++ [last]) → is.length < fuel →
      (∀ i ∈ is ++ [last], t.stored? i ≠ some v) →
      t.follow v fuel start = .ok (.missing last)
  | _, _, 0, _, hf, _ => absurd hf (Nat.not_lt_zero _)
  | [], start, fuel + 1, ⟨hs, h0, cell, hc, hl⟩, _, hn => by
      subst hs
      have hheld : cell.value ≠ v := fun e =>
        hn start (by simp) (by rw [stored?_eq_of_cell h0 hc, e])
      exact (follow_succ room h0 hc fuel).2.1 hheld hl
  | i :: is, start, fuel + 1, ⟨hs, h0, cell, hc, hl⟩, hf, hn => by
      subst hs
      have hheld : cell.value ≠ v := fun e =>
        hn start (by simp) (by rw [stored?_eq_of_cell h0 hc, e])
      have hnext : cell.next ≠ 0 := fun e =>
        absurd (hl.eq_zero_iff.mp e) (List.append_ne_nil_of_right_ne_nil _ (by simp))
      rw [(follow_succ room h0 hc fuel).2.2 hheld hnext]
      refine follow_missing room hl ?_ fun j hj => hn j (List.mem_cons_of_mem _ hj)
      rw [List.length_cons] at hf
      omega

end Search

/-! ## 4. Appending -/

/-- Behind `reserve` there is room for one more value. -/
theorem reserve_room {t : Table α} (h : t.size < t.capacity) :
    t.size + 1 < t.reserve.capacity := by
  unfold reserve
  split
  · show t.size + 1 < max (t.capacity * 2) 2
    omega
  · rename_i hc
    simp only [crowded, Bool.or_eq_true, decide_eq_true_eq, not_or] at hc
    exact Nat.not_le.mp hc.2

@[simp] theorem reserve_cells (t : Table α) : t.reserve.cells = t.cells := by
  unfold reserve
  split <;> rfl

@[simp] theorem reserve_buckets (t : Table α) : t.reserve.buckets = t.buckets := by
  unfold reserve
  split <;> rfl

@[simp] theorem reserve_loose (t : Table α) : t.reserve.loose = t.loose := by
  unfold reserve
  split <;> rfl

theorem add_fst (t : Table α) (v : α) : (t.add v).1 = t.size + 1 := by
  simp [add, size]

theorem add_cells (t : Table α) (v : α) : (t.add v).2.cells = t.cells.push ⟨v, 0⟩ := by
  simp [add]

theorem add_size (t : Table α) (v : α) : (t.add v).2.size = t.size + 1 := by
  simp [size, add_cells]

theorem values_add (t : Table α) (v : α) : (t.add v).2.values = t.values ++ [v] := by
  simp [values, add_cells]

theorem add_cell_new (t : Table α) (v : α) :
    (t.add v).2.cells[t.size + 1 - 1]? = some ⟨v, 0⟩ := by
  rw [add_cells, Nat.add_sub_cancel]
  exact Array.getElem?_push_size

theorem link_cells {t : Table α} {i : Nat} (h : i ≤ t.size) (next : Nat) :
    (t.link i next).cells = t.cells.modify (i - 1) fun cell => { cell with next } := by
  rw [link, if_pos h]

theorem link_loose {t : Table α} {i : Nat} (h : i ≤ t.size) (next : Nat) :
    (t.link i next).loose = t.loose := by
  rw [link, if_pos h]

@[simp] theorem link_buckets (t : Table α) (i next : Nat) :
    (t.link i next).buckets = t.buckets := by
  unfold link
  split <;> rfl

@[simp] theorem link_capacity (t : Table α) (i next : Nat) :
    (t.link i next).capacity = t.capacity := by
  unfold link
  split <;> rfl

/-- Links are no values. -/
@[simp] theorem values_link (t : Table α) (i next : Nat) : (t.link i next).values = t.values := by
  unfold link
  split
  · apply List.ext_getElem?
    intro k
    simp only [values, List.getElem?_map, Array.getElem?_toList, Array.getElem?_modify]
    split
    · rw [Option.map_map]
      rfl
    · rfl
  · rfl

@[simp] theorem link_size (t : Table α) (i next : Nat) : (t.link i next).size = t.size := by
  rw [← length_values, values_link, length_values]

/-- A stored value keeps its index when another one is appended. -/
theorem stored?_append {t u : Table α} {more : List α} (h : u.values = t.values ++ more) {i : Nat}
    {v : α} (hv : t.stored? i = some v) : u.stored? i = some v := by
  obtain ⟨h0, hle⟩ := stored?_le hv
  have hlt : i - 1 < t.values.length := by rw [length_values]; omega
  rw [stored?, if_neg h0] at hv
  rw [stored?, if_neg h0, h, List.getElem?_append_left hlt, hv]

theorem stored?_append_last {t u : Table α} {v : α} (h : u.values = t.values ++ [v]) :
    u.stored? (t.size + 1) = some v := by
  rw [stored?, if_neg (Nat.succ_ne_zero _), h, Nat.add_sub_cancel,
    List.getElem?_append_right (by simp), length_values, Nat.sub_self]
  rfl

/-! ## 5. The invariant -/

variable [Hashable α]

/-- **The invariant of a table**: every bucket leads through its chain, the chains list indices
of their bucket in increasing order and no value twice, and a cell is free. -/
structure Chained (t : Table α) (chain : Nat → List Nat) : Prop where
  room : t.size < t.capacity
  someBucket : 0 < t.buckets.size
  fewBuckets : t.buckets.size ≤ twoPow 16
  tidy : t.loose = []
  linked : ∀ b, t.Linked (t.buckets[b]?.getD 0) (chain b)
  rising : ∀ b, (chain b).Pairwise (· < ·)
  home : ∀ b, ∀ i ∈ chain b, ∃ v, t.stored? i = some v ∧ t.bucketOf v = b
  distinct : ∀ b, ∀ i ∈ chain b, ∀ j ∈ chain b, t.stored? i = t.stored? j → i = j

section Chained

variable {t : Table α} {chain : Nat → List Nat} {v : α}

theorem Chained.le_size (h : t.Chained chain) {b i : Nat} (hi : i ∈ chain b) :
    i ≠ 0 ∧ i ≤ t.size := by
  obtain ⟨v, hv, _⟩ := h.home b i hi
  exact stored?_le hv

/-- A chain is no longer than the table. -/
theorem Chained.length_le (h : t.Chained chain) (b : Nat) : (chain b).length ≤ t.size := by
  have hsub : chain b ⊆ List.range' 1 t.size := fun i hi => by
    obtain ⟨h0, hle⟩ := h.le_size hi
    exact List.mem_range'_1.mpr ⟨by omega, by omega⟩
  have hnodup : (chain b).Nodup := (h.rising b).imp fun hlt => Nat.ne_of_lt hlt
  have := (List.subperm_of_subset hnodup hsub).length_le
  rwa [List.length_range'] at this

theorem Chained.bucketOf_lt (h : t.Chained chain) (v : α) : t.bucketOf v < t.buckets.size := by
  have hle : t.buckets.size ≤ 65536 := h.fewBuckets
  have hsize : t.buckets.size.toUInt64.toNat = t.buckets.size :=
    UInt64.toNat_ofNat_of_lt' (by show t.buckets.size < 2 ^ 64; omega)
  rw [bucketOf, UInt64.toNat_mod, hsize]
  exact Nat.mod_lt _ h.someBucket

variable [BEq α] [LawfulBEq α]

/-- **A search finds exactly the values of the bucket's chain.** -/
theorem Chained.probe_found (h : t.Chained chain) {i : Nat} (hi : i ∈ chain (t.bucketOf v))
    (hv : t.stored? i = some v) : t.probe v = .ok (.found i) := by
  have hl := h.linked (t.bucketOf v)
  have hlen := h.length_le (t.bucketOf v)
  obtain ⟨j, hj, hjv, run⟩ := follow_found h.room (t.size + t.loose.length + 1) hl (by omega)
    ⟨i, hi, hv⟩
  have hij : j = i := h.distinct _ j hj i hi (hjv.trans hv.symm)
  subst hij
  have hstart : t.buckets[t.bucketOf v]?.getD 0 ≠ 0 := fun e => by
    rw [hl.eq_zero_iff.mp e] at hi
    exact absurd hi List.not_mem_nil
  unfold probe
  split
  · rename_i e
    exact absurd e hstart
  · exact run

theorem Chained.probe_missing (h : t.Chained chain)
    (hn : ∀ i ∈ chain (t.bucketOf v), t.stored? i ≠ some v) :
    t.probe v = .ok (.missing ((chain (t.bucketOf v)).getLast?.getD 0)) := by
  have hl := h.linked (t.bucketOf v)
  have hlen := h.length_le (t.bucketOf v)
  unfold probe
  split
  · rename_i e
    rw [hl.eq_zero_iff.mp e]
    rfl
  · rename_i hstart
    rcases List.eq_nil_or_concat (chain (t.bucketOf v)) with e | ⟨is, last, e⟩
    · exact absurd (hl.eq_zero_iff.mpr e) hstart
    · rw [List.concat_eq_append] at e
      rw [e, List.length_append] at hlen
      rw [e] at hl hn
      rw [e, List.getLast?_concat, Option.getD_some]
      exact follow_missing h.room hl (by omega) hn

end Chained

/-! ## 6. Storing -/

section Storing

variable {t : Table α} {chain : Nat → List Nat}

/-- What is stored outside the chains changes none of them. -/
theorem Chained.add (h : t.Chained chain) (v : α) : (t.add v).2.Chained chain where
  room := by
    rw [add_size]
    exact reserve_room h.room
  someBucket := by simpa [Table.add] using h.someBucket
  fewBuckets := by simpa [Table.add] using h.fewBuckets
  tidy := by simpa [Table.add] using h.tidy
  linked b := by
    have hb : (t.add v).2.buckets = t.buckets := by simp [Table.add]
    rw [hb]
    refine (h.linked b).congr fun i hi => ?_
    obtain ⟨h0, hle⟩ := h.le_size hi
    rw [add_cells, Array.getElem?_push_lt (by unfold size at hle; omega),
      Array.getElem?_eq_getElem]
  rising := h.rising
  home b i hi := by
    obtain ⟨w, hw, hb⟩ := h.home b i hi
    refine ⟨w, stored?_append (values_add t v) hw, ?_⟩
    simpa [bucketOf, Table.add] using hb
  distinct b i hi j hj e := by
    obtain ⟨w, hw, _⟩ := h.home b i hi
    obtain ⟨w', hw', _⟩ := h.home b j hj
    rw [stored?_append (values_add t v) hw, stored?_append (values_add t v) hw'] at e
    exact h.distinct b i hi j hj (by rw [hw, hw', e])

/-- One chain gets one more index. -/
theorem mem_update_append {c n b i : Nat} : i ∈ Function.update chain c (chain c ++ [n]) b ↔
    i ∈ chain b ∨ (b = c ∧ i = n) := by
  by_cases hb : b = c
  · subst hb
    rw [Function.update_self, List.mem_append, List.mem_singleton, eq_self, true_and]
  · rw [Function.update_of_ne hb, eq_false hb, false_and, or_false]

/-- A table whose cells, up to links, are those of `t` and one more, and whose new index is
linked at the end of one chain. -/
theorem Chained.snoc {u : Table α} {v : α} (h : t.Chained chain)
    (values : u.values = t.values ++ [v]) (room : u.size < u.capacity)
    (buckets : u.buckets.size = t.buckets.size) (tidy : u.loose = [])
    (others : ∀ b, b ≠ t.bucketOf v → u.Linked (u.buckets[b]?.getD 0) (chain b))
    (here : u.Linked (u.buckets[t.bucketOf v]?.getD 0)
      (chain (t.bucketOf v) ++ [t.size + 1]))
    (new : ∀ i ∈ chain (t.bucketOf v), t.stored? i ≠ some v) :
    u.Chained (Function.update chain (t.bucketOf v) (chain (t.bucketOf v) ++ [t.size + 1])) where
  room := room
  someBucket := buckets ▸ h.someBucket
  fewBuckets := buckets ▸ h.fewBuckets
  tidy := tidy
  linked b := by
    by_cases hb : b = t.bucketOf v
    · subst hb
      rw [Function.update_self]
      exact here
    · rw [Function.update_of_ne hb]
      exact others b hb
  rising b := by
    by_cases hb : b = t.bucketOf v
    · subst hb
      rw [Function.update_self]
      refine List.pairwise_append.mpr ⟨h.rising _, List.pairwise_singleton _ _, fun i hi j hj => ?_⟩
      have hle := (h.le_size hi).2
      rw [List.mem_singleton.mp hj]
      omega
    · rw [Function.update_of_ne hb]
      exact h.rising b
  home b i hi := by
    have hbucket : ∀ w, u.bucketOf w = t.bucketOf w := fun w => by simp only [bucketOf, buckets]
    rcases mem_update_append.mp hi with hi | ⟨rfl, rfl⟩
    · obtain ⟨w, hw, hwb⟩ := h.home _ i hi
      exact ⟨w, stored?_append values hw, (hbucket w).trans hwb⟩
    · exact ⟨v, stored?_append_last values, hbucket v⟩
  distinct b i hi j hj e := by
    have kept : ∀ k ∈ chain b, u.stored? k = t.stored? k := fun k hk => by
      obtain ⟨w, hw, _⟩ := h.home b k hk
      rw [stored?_append values hw, hw]
    rcases mem_update_append.mp hi with hi | ⟨rfl, rfl⟩ <;>
      rcases mem_update_append.mp hj with hj | ⟨_, rfl⟩
    · exact h.distinct _ i hi j hj (by rw [← kept i hi, ← kept j hj, e])
    · subst b
      rw [kept i hi, stored?_append_last values] at e
      exact absurd e (new i hi)
    · rw [kept j hj, stored?_append_last values] at e
      exact absurd e.symm (new j hj)
    · rfl

/-- A new value of an empty bucket becomes its head. -/
theorem Chained.head {v : α} (h : t.Chained chain) (e : chain (t.bucketOf v) = []) :
    Chained { (t.add v).2 with
        buckets := (t.add v).2.buckets.setIfInBounds (t.bucketOf v) (t.size + 1) }
      (Function.update chain (t.bucketOf v) (chain (t.bucketOf v) ++ [t.size + 1])) := by
  have hadd := h.add v
  have hbuckets : (t.add v).2.buckets = t.buckets := by simp [Table.add]
  refine h.snoc (values_add t v) hadd.room (by simp [hbuckets]) hadd.tidy (fun b hb => ?_) ?_
    (by simp [e])
  · have hl := hadd.linked b
    rw [hbuckets] at hl
    show Linked _ ((Array.setIfInBounds _ _ _)[b]?.getD 0) _
    rw [hbuckets, Array.getElem?_setIfInBounds_ne (Ne.symm hb)]
    exact hl.congr fun _ _ => rfl
  · rw [e]
    show Linked _ ((Array.setIfInBounds _ _ _)[t.bucketOf v]?.getD 0) _
    rw [hbuckets, Array.getElem?_setIfInBounds_self_of_lt (h.bucketOf_lt v)]
    exact ⟨rfl, Nat.succ_ne_zero _, ⟨v, 0⟩, add_cell_new t v, rfl⟩

/-- A new value of another bucket is linked behind the last one. -/
theorem Chained.tail {v : α} {is : List Nat} {last : Nat} (h : t.Chained chain)
    (e : chain (t.bucketOf v) = is ++ [last])
    (new : ∀ i ∈ chain (t.bucketOf v), t.stored? i ≠ some v) :
    ((t.add v).2.link last (t.size + 1)).Chained
      (Function.update chain (t.bucketOf v) (chain (t.bucketOf v) ++ [t.size + 1])) := by
  have hadd := h.add v
  have hbuckets : (t.add v).2.buckets = t.buckets := by simp [Table.add]
  have hlast : last ∈ chain (t.bucketOf v) := by rw [e]; simp
  obtain ⟨h0, hle⟩ := h.le_size hlast
  have hcell : ∀ i, i ≠ 0 → i ≠ last →
      ((t.add v).2.link last (t.size + 1)).cells[i - 1]? = (t.add v).2.cells[i - 1]? :=
    fun i hi hil => by
      rw [link_cells (by rw [add_size]; omega), Array.getElem?_modify, if_neg (by omega)]
  refine h.snoc (by rw [values_link, values_add]) ?_ ?_ ?_ (fun b hb => ?_) ?_ new
  · rw [link_size, link_capacity]
    exact hadd.room
  · rw [link_buckets, hbuckets]
  · rw [link_loose (by rw [add_size]; omega)]
    exact hadd.tidy
  · rw [link_buckets]
    refine (hadd.linked b).congr fun i hi => hcell i (h.le_size hi).1 fun hil => ?_
    subst hil
    obtain ⟨w, hw, hwb⟩ := h.home b i hi
    obtain ⟨w', hw', hwb'⟩ := h.home _ i hlast
    rw [hw] at hw'
    obtain rfl := Option.some.inj hw'
    exact hb (hwb.symm.trans hwb')
  · have hl := hadd.linked (t.bucketOf v)
    rw [hbuckets, e] at hl
    obtain ⟨held, hheld, _⟩ := h.home _ last hlast
    obtain ⟨_, cell, hc, _⟩ := cell_of_stored? hheld
    rw [link_buckets, hbuckets, e]
    refine Linked.snoc (w := cell.value) (v := v) (Nat.succ_ne_zero _) ?_ ?_ hl fun i hi => ?_
    · obtain ⟨hlt, _⟩ := Array.getElem?_eq_some_iff.mp hc
      rw [link_cells (by rw [add_size]; omega), Array.getElem?_modify, if_pos rfl, add_cells,
        Array.getElem?_push_lt hlt, ← Array.getElem?_eq_getElem, hc]
      rfl
    · rw [hcell _ (Nat.succ_ne_zero _) (by omega)]
      exact add_cell_new t v
    · have hrise := h.rising (t.bucketOf v)
      rw [e] at hrise
      have hlt : i < last := (List.pairwise_append.mp hrise).2.2 i hi last (by simp)
      exact hcell i (h.le_size (show i ∈ chain (t.bucketOf v) by rw [e]; simp [hi])).1 (by omega)

variable [BEq α] [LawfulBEq α]

/-- **A value that a chain has is found.** -/
theorem Chained.put_known {v : α} {i : Nat} (h : t.Chained chain)
    (hi : i ∈ chain (t.bucketOf v)) (hv : t.stored? i = some v) : t.put v = (.ok i, t) := by
  rw [put, h.probe_found hi hv]

/-- **A value that no chain has is appended under the next index**, which joins the chain of its
bucket. -/
theorem Chained.put_new {v : α} (h : t.Chained chain)
    (new : ∀ i ∈ chain (t.bucketOf v), t.stored? i ≠ some v) :
    ∃ u, t.put v = (.ok (t.size + 1), u) ∧ u.values = t.values ++ [v] ∧
      u.buckets.size = t.buckets.size ∧
      u.Chained (Function.update chain (t.bucketOf v) (chain (t.bucketOf v) ++ [t.size + 1])) := by
  have hbuckets : (t.add v).2.buckets = t.buckets := by simp [Table.add]
  have hput : t.put v =
      if (chain (t.bucketOf v)).getLast?.getD 0 = 0 then
        (.ok (t.size + 1), { (t.add v).2 with
          buckets := (t.add v).2.buckets.setIfInBounds (t.bucketOf v) (t.size + 1) })
      else
        (.ok (t.size + 1), (t.add v).2.link ((chain (t.bucketOf v)).getLast?.getD 0)
          (t.size + 1)) := by
    rw [put, h.probe_missing new, ← add_fst t v]
  rcases List.eq_nil_or_concat (chain (t.bucketOf v)) with e | ⟨is, last, e⟩
  · have hlast : (chain (t.bucketOf v)).getLast?.getD 0 = 0 := by rw [e]; rfl
    rw [if_pos hlast] at hput
    exact ⟨_, hput, values_add t v, by simp [hbuckets], h.head e⟩
  · rw [List.concat_eq_append] at e
    have hlast : (chain (t.bucketOf v)).getLast?.getD 0 = last := by
      rw [e, List.getLast?_concat, Option.getD_some]
    have h0 := (h.le_size (show last ∈ chain (t.bucketOf v) by rw [e]; simp)).1
    rw [hlast, if_neg h0] at hput
    exact ⟨_, hput, by rw [values_link, values_add], by rw [link_buckets, hbuckets], h.tail e new⟩

end Storing

/-! ## 7. New tables -/

/-- **A new table has no values and empty chains.** -/
theorem create_chained {bits : Nat} {minFree : Float} {t : Table α}
    (h : create bits minFree = .ok t) : t.values = [] ∧ t.Chained fun _ => [] := by
  unfold create at h
  split at h
  · cases h
  · split at h
    · obtain rfl := Except.ok.inj h
      refine ⟨rfl, twoPow_pos bits, ?_, ?_, rfl, fun b => ?_, fun _ => .nil, fun _ _ hi => ?_,
        fun _ _ hi => ?_⟩
      · rw [Array.size_replicate]
        exact twoPow_pos _
      · rw [Array.size_replicate]
        exact twoPow_le_twoPow (Nat.min_le_right bits 16)
      · rw [Array.getElem?_replicate]
        show (if _ then _ else _ : Option Nat).getD 0 = 0
        split <;> rfl
      · exact absurd hi List.not_mem_nil
      · exact absurd hi List.not_mem_nil
    · cases h

end Factbase.Diagram.Table
