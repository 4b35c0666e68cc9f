import Factbase.Proofs.Diagram.Chains

/-!
# Runs of a table

A table is used by calls, one behind another: `put` looks a value up and stores it where it is new,
`add` stores it in any case. Nothing is asked of the hash but that equal values have equal ones.

* `Table.runAll t cs`: the answers to calls and the table behind them;
* `Table.Visits`: the indices that are met where links are followed;
* `Table.Keeps t calls chain`: what a table has of the calls that it answered;
* `Keeps.run`, `Keeps.runAll`: **every call is answered, and what the table has of the earlier ones
  stays**;
* `runAll_conses`: **in every run each call is answered with an index of its value, and two `put`
  are answered alike exactly where their values are equal.**
-/

namespace Factbase.Diagram.Table

variable {α : Type}

/-- A call that stores a value or looks it up. -/
inductive Call (α : Type) where
  | put (v : α)
  | add (v : α)

/-- The value of a call. -/
def Call.value : Call α → α
  | .put v | .add v => v

/-- Following links from an index meets these indices one by one, and then ends. -/
def Visits (t : Table α) : Nat → List Nat → Prop
  | start, [] => start = 0
  | start, i :: is => start = i ∧ ∃ n, t.next i = .ok n ∧ t.Visits n is

section Calls

variable [Hashable α] [BEq α]

/-- The answer to a call, and the table behind it. -/
def Call.run : Call α → Table α → Except Fault Nat × Table α
  | .put v, t => t.put v
  | .add v, t => (.ok (t.add v).1, (t.add v).2)

/-- The answers to calls, one behind another, and the table behind them. -/
def runAll (t : Table α) : List (Call α) → List (Except Fault Nat) × Table α
  | [] => ([], t)
  | c :: cs =>
    let (answer, t) := c.run t
    let (answers, t) := t.runAll cs
    (answer :: answers, t)

end Calls

/-! ## 1. Following links -/

theorem Linked.visits {t : Table α} (room : t.size < t.capacity) : ∀ {is : List Nat} {start : Nat},
    t.Linked start is → t.Visits start is
  | [], _, h => h
  | _ :: _, _, ⟨hs, h0, cell, hc, hl⟩ => ⟨hs, cell.next, next_eq_ok room h0 hc, hl.visits room⟩

theorem value_eq_ok_iff {t : Table α} {i : Nat} {v : α} :
    t.value i = .ok v ↔ t.stored? i = some v := by
  refine ⟨fun h => ?_, value_eq_ok⟩
  have h0 : i ≠ 0 := fun h0 => by rw [h0] at h; cases h
  rw [value, if_neg h0] at h
  cases hc : t.cells[i - 1]? with
  | none => rw [hc] at h; cases h
  | some cell =>
      rw [hc] at h
      rw [stored?_eq_of_cell h0 hc]
      exact congrArg some (Except.ok.inj h)

/-- A value that is stored stays stored where more are appended. -/
theorem value_of_prefix {t u : Table α} (h : t.values <+: u.values) {i : Nat} {v : α}
    (hv : t.value i = .ok v) : u.value i = .ok v := by
  obtain ⟨more, hmore⟩ := h
  exact value_eq_ok (stored?_append hmore.symm (value_eq_ok_iff.mp hv))

/-! ## 2. What a table keeps -/

/-- Every call has its answer. -/
theorem exists_answer {cs : List (Call α)} {is : List Nat} (hlen : is.length = cs.length)
    {c : Call α} (hc : c ∈ cs) : ∃ i, (c, i) ∈ cs.zip is := by
  obtain ⟨k, hk, rfl⟩ := List.getElem_of_mem hc
  have hzip : k < (cs.zip is).length := by rw [List.length_zip]; omega
  refine ⟨is[k], ?_⟩
  rw [← List.getElem_zip (h := hzip)]
  exact List.getElem_mem hzip

variable [Hashable α]

/-- What a table has of the calls that it answered: every answer leads to the value of its call,
those of `put` stand in the chain of the value's bucket, and nothing else stands there. -/
structure Keeps (t : Table α) (calls : List (Call α × Nat)) (chain : Nat → List Nat) : Prop where
  chained : t.Chained chain
  answered : ∀ c i, (c, i) ∈ calls → t.stored? i = some c.value
  joined : ∀ v i, (.put v, i) ∈ calls → i ∈ chain (t.bucketOf v)
  origin : ∀ b, ∀ i ∈ chain b, ∃ v, (.put v, i) ∈ calls ∧ t.bucketOf v = b

section Keeps

variable {t : Table α} {calls : List (Call α × Nat)} {chain : Nat → List Nat}

theorem keeps_create {bits : Nat} {minFree : Float} (h : create bits minFree = .ok t) :
    t.Keeps [] fun _ => [] where
  chained := (create_chained h).2
  answered _ _ hmem := absurd hmem List.not_mem_nil
  joined _ _ hmem := absurd hmem List.not_mem_nil
  origin _ _ hmem := absurd hmem List.not_mem_nil

variable (h : t.Keeps calls chain)

include h

/-- One more answered call. -/
theorem Keeps.concat {u : Table α} {chain' : Nat → List Nat} {c : Call α} {i : Nat}
    (chained : u.Chained chain') (buckets : u.buckets.size = t.buckets.size)
    (grown : t.values <+: u.values) (stored : u.stored? i = some c.value)
    (joined : ∀ v, c = .put v → i ∈ chain' (t.bucketOf v))
    (kept : ∀ b, ∀ j ∈ chain b, j ∈ chain' b)
    (origin : ∀ b, ∀ j ∈ chain' b, j ∈ chain b ∨ ∃ v, c = .put v ∧ j = i ∧ t.bucketOf v = b) :
    u.Keeps (calls ++ [(c, i)]) chain' := by
  have hbucket : ∀ v, u.bucketOf v = t.bucketOf v := fun v => by simp only [bucketOf, buckets]
  obtain ⟨more, hmore⟩ := grown
  refine ⟨chained, fun d j hmem => ?_, fun v j hmem => ?_, fun b j hj => ?_⟩
  · rcases List.mem_append.mp hmem with hmem | hmem
    · exact stored?_append hmore.symm (h.answered d j hmem)
    · obtain ⟨rfl, rfl⟩ := Prod.mk.inj (List.mem_singleton.mp hmem)
      exact stored
  · rw [hbucket]
    rcases List.mem_append.mp hmem with hmem | hmem
    · exact kept _ j (h.joined v j hmem)
    · obtain ⟨hput, rfl⟩ := Prod.mk.inj (List.mem_singleton.mp hmem)
      exact joined v hput.symm
  · rcases origin b j hj with hold | ⟨v, rfl, rfl, hb⟩
    · obtain ⟨v, hmem, hb⟩ := h.origin b j hold
      exact ⟨v, List.mem_append_left _ hmem, (hbucket v).trans hb⟩
    · exact ⟨v, List.mem_append_right _ (List.mem_singleton_self _), (hbucket v).trans hb⟩

/-- A value stands in the chain of its bucket exactly where it was put. -/
theorem Keeps.mem_chain_iff {v : α} {i : Nat} :
    i ∈ chain (t.bucketOf v) ∧ t.stored? i = some v ↔ (.put v, i) ∈ calls := by
  constructor
  · rintro ⟨hi, hv⟩
    obtain ⟨w, hmem, _⟩ := h.origin _ i hi
    have hw := h.answered _ i hmem
    rw [hv] at hw
    obtain rfl : v = w := Option.some.inj hw
    exact hmem
  · exact fun hmem => ⟨h.joined v i hmem, h.answered _ i hmem⟩

/-- **Two `put` have the same answer exactly where their values are equal.** -/
theorem Keeps.answer_eq_iff {v w : α} {i j : Nat} (hv : (.put v, i) ∈ calls)
    (hw : (.put w, j) ∈ calls) : i = j ↔ v = w := by
  have hi := h.answered _ i hv
  have hj := h.answered _ j hw
  constructor
  · rintro rfl
    exact Option.some.inj (hi.symm.trans hj)
  · rintro rfl
    exact h.chained.distinct _ i (h.joined v i hv) j (h.joined v j hw) (hi.trans hj.symm)

/-- **Following links from a bucket** meets the values put into it, each once and in increasing
order. -/
theorem Keeps.visits (b : Nat) : ∃ is, t.Visits (t.buckets[b]?.getD 0) is ∧
    is.Pairwise (· < ·) ∧ ∀ i, i ∈ is ↔ ∃ v, (.put v, i) ∈ calls ∧ t.bucketOf v = b := by
  refine ⟨chain b, (h.chained.linked b).visits h.chained.room, h.chained.rising b, fun i => ?_⟩
  refine ⟨h.origin b i, ?_⟩
  rintro ⟨v, hmem, rfl⟩
  exact h.joined v i hmem

end Keeps

/-! ## 3. What a table promises -/

/-- What a table promises behind calls with answers. -/
structure Conses (t : Table α) (cs : List (Call α)) (is : List Nat) : Prop where
  /-- All cells in use are there, and all buckets. -/
  room : t.size < t.capacity
  bucket : ∀ v, t.bucketOf v < t.buckets.size
  /-- Every call was answered with an index of its value. -/
  answers : List.Forall₂ (fun c i => 1 ≤ i ∧ i ≤ t.size ∧ t.value i = .ok c.value) cs is
  /-- Two `put` were answered alike exactly where their values are equal. -/
  alike : ∀ v w i j, (.put v, i) ∈ cs.zip is → (.put w, j) ∈ cs.zip is → (i = j ↔ v = w)
  /-- Following links from a bucket meets the values put into it, each once and in order. -/
  visits : ∀ b < t.buckets.size, ∃ chain, t.Visits (t.buckets[b]?.getD 0) chain ∧
    chain.Pairwise (· < ·) ∧
    (∀ i ∈ chain, ∃ v, .put v ∈ cs ∧ t.bucketOf v = b ∧ t.value i = .ok v) ∧
    ∀ v, .put v ∈ cs → t.bucketOf v = b → ∃! i, i ∈ chain ∧ t.value i = .ok v

theorem Keeps.conses {t : Table α} {cs : List (Call α)} {is : List Nat} {chain : Nat → List Nat}
    (h : t.Keeps (cs.zip is) chain) (hlen : is.length = cs.length) : t.Conses cs is where
  room := h.chained.room
  bucket := h.chained.bucketOf_lt
  answers := by
    refine List.forall₂_iff_zip.mpr ⟨hlen.symm, fun {c i} hmem => ?_⟩
    have hstored := h.answered c i hmem
    obtain ⟨h0, hle⟩ := stored?_le hstored
    exact ⟨Nat.one_le_iff_ne_zero.mpr h0, hle, value_eq_ok hstored⟩
  alike _ _ _ _ := h.answer_eq_iff
  visits b _ := by
    obtain ⟨is, visits, rising, hmet⟩ := h.visits b
    refine ⟨is, visits, rising, fun i hi => ?_, fun v hv hb => ?_⟩
    · obtain ⟨v, hmem, hb⟩ := (hmet i).mp hi
      exact ⟨v, (List.of_mem_zip hmem).1, hb, value_eq_ok (h.answered _ i hmem)⟩
    · obtain ⟨i, hmem⟩ := exists_answer hlen hv
      refine ⟨i, ⟨(hmet i).mpr ⟨v, hmem, hb⟩, value_eq_ok (h.answered _ i hmem)⟩, ?_⟩
      rintro j ⟨hj, hvalue⟩
      obtain ⟨w, hw, _⟩ := (hmet j).mp hj
      have hvw := h.answered _ j hw
      rw [value_eq_ok_iff.mp hvalue] at hvw
      exact (h.answer_eq_iff hw hmem).mpr (Option.some.inj hvw).symm

/-! ## 4. Runs -/

section Runs

variable {t : Table α} {calls : List (Call α × Nat)} {chain : Nat → List Nat}
  (h : t.Keeps calls chain)

include h

/-- A value that is added stands in no chain. -/
theorem Keeps.add (v : α) : (t.add v).2.Keeps (calls ++ [(.add v, t.size + 1)]) chain := by
  have hvalues := values_add t v
  exact h.concat (h.chained.add v) (by simp [Table.add]) ⟨[v], hvalues.symm⟩
    (stored?_append_last hvalues) (fun _ hput => by cases hput) (fun _ _ hj => hj)
    fun _ _ hj => Or.inl hj

variable [BEq α] [LawfulBEq α] {v : α}

/-- A value that was put is found. -/
theorem Keeps.put_known {i : Nat} (hmem : (.put v, i) ∈ calls) :
    t.put v = (.ok i, t) ∧ t.Keeps (calls ++ [(.put v, i)]) chain := by
  obtain ⟨hi, hv⟩ := h.mem_chain_iff.mpr hmem
  refine ⟨h.chained.put_known hi hv, ?_⟩
  refine h.concat h.chained rfl List.prefix_rfl hv (fun w hput => ?_) (fun _ _ hj => hj)
    fun _ _ hj => Or.inl hj
  obtain rfl : v = w := Call.put.inj hput
  exact hi

/-- A value that was not put is stored at the end of its chain. -/
theorem Keeps.put_new (hnew : ∀ i, (.put v, i) ∉ calls) : ∃ u,
    t.put v = (.ok (t.size + 1), u) ∧ u.values = t.values ++ [v] ∧
      u.Keeps (calls ++ [(.put v, t.size + 1)])
        (Function.update chain (t.bucketOf v) (chain (t.bucketOf v) ++ [t.size + 1])) := by
  obtain ⟨u, run, hvalues, hbuckets, hchained⟩ := h.chained.put_new fun i hi hv =>
    hnew i (h.mem_chain_iff.mp ⟨hi, hv⟩)
  refine ⟨u, run, hvalues, ?_⟩
  refine h.concat hchained hbuckets ⟨[v], hvalues.symm⟩ (stored?_append_last hvalues)
    (fun w hput => ?_) (fun _ _ hj => mem_update_append.mpr (Or.inl hj)) fun b j hj => ?_
  · obtain rfl : v = w := Call.put.inj hput
    exact mem_update_append.mpr (Or.inr ⟨rfl, rfl⟩)
  · exact (mem_update_append.mp hj).imp_right fun hlast => ⟨v, rfl, hlast.2, hlast.1.symm⟩

/-- **Every call is answered.** A `put` of a value that was put before changes nothing; any other
call appends its value and is answered with the next index. -/
theorem Keeps.run (c : Call α) : ∃ i u chain', c.run t = (.ok i, u) ∧
    u.Keeps (calls ++ [(c, i)]) chain' ∧ t.values <+: u.values ∧
    ((∃ v j, c = .put v ∧ (.put v, j) ∈ calls) → u = t) ∧
    ((¬ ∃ v j, c = .put v ∧ (.put v, j) ∈ calls) → i = t.size + 1 ∧ u.size = t.size + 1) := by
  cases c with
  | add v =>
      refine ⟨t.size + 1, (t.add v).2, chain, by rw [Call.run, add_fst], h.add v,
        ⟨[v], (values_add t v).symm⟩, ?_, fun _ => ⟨rfl, add_size t v⟩⟩
      rintro ⟨_, _, hput, _⟩
      cases hput
  | put v =>
      by_cases hknown : ∃ i, (.put v, i) ∈ calls
      · obtain ⟨i, hmem⟩ := hknown
        obtain ⟨run, hkeeps⟩ := h.put_known hmem
        exact ⟨i, t, chain, run, hkeeps, List.prefix_rfl, fun _ => rfl,
          fun hnot => absurd ⟨v, i, rfl, hmem⟩ hnot⟩
      · obtain ⟨u, run, hvalues, hkeeps⟩ := h.put_new fun i hmem => hknown ⟨i, hmem⟩
        have hsize : u.size = t.size + 1 := by
          rw [← length_values, hvalues, List.length_append, length_values, List.length_singleton]
        refine ⟨t.size + 1, u, _, run, hkeeps, ⟨[v], hvalues.symm⟩, ?_, fun _ => ⟨rfl, hsize⟩⟩
        rintro ⟨w, i, hput, hmem⟩
        obtain rfl : v = w := Call.put.inj hput
        exact absurd ⟨i, hmem⟩ hknown

end Runs

variable [BEq α] [LawfulBEq α]

/-- **Calls one behind another are all answered**, and what is stored stays. -/
theorem Keeps.runAll (cs : List (Call α)) {t : Table α} {calls : List (Call α × Nat)}
    {chain : Nat → List Nat} (h : t.Keeps calls chain) :
    ∃ is u chain', t.runAll cs = (is.map .ok, u) ∧ is.length = cs.length ∧
      u.Keeps (calls ++ cs.zip is) chain' ∧ t.values <+: u.values := by
  induction cs generalizing t calls chain with
  | nil =>
      rw [← List.append_nil calls] at h
      exact ⟨[], t, chain, rfl, rfl, h, List.prefix_rfl⟩
  | cons c cs ih =>
      obtain ⟨i, u, chain₁, run, hu, hgrown, _⟩ := h.run c
      obtain ⟨is, w, chain₂, runs, hlen, hw, hgrown'⟩ := ih hu
      refine ⟨i :: is, w, chain₂, ?_, congrArg (· + 1) hlen, ?_, hgrown.trans hgrown'⟩
      · rw [Table.runAll, run]
        dsimp only
        rw [runs]
        rfl
      · rwa [List.append_assoc] at hw

/-! ## 5. Main result -/

/-- **A table conses.** From a new table on every sequence of calls is answered; behind it the table
has what it promises, the next call that puts a known value changes nothing, any other one stores
its value under the next index, and whatever calls follow, no stored value moves. -/
theorem runAll_conses {bits : Nat} {minFree : Float} (few : bits ≤ 31) (low : 0.0 ≤ minFree)
    (high : minFree < 1.0) : ∃ t₀ : Table α, create bits minFree = .ok t₀ ∧ t₀.size = 0 ∧
      t₀.capacity = twoPow bits ∧ ∀ cs : List (Call α), ∃ is t,
        t₀.runAll cs = (is.map .ok, t) ∧ is.length = cs.length ∧ t.Conses cs is ∧
        (∀ c : Call α, ∃ i u, c.run t = (.ok i, u) ∧
          ((∃ v, c = .put v ∧ .put v ∈ cs) → u = t) ∧
          ((¬ ∃ v, c = .put v ∧ .put v ∈ cs) → i = t.size + 1 ∧ u.size = t.size + 1)) ∧
        ∀ (more : List (Call α)) (j : Nat) (v : α), t.value j = .ok v →
          (t.runAll more).2.value j = .ok v := by
  have hcreate : create (α := α) bits minFree = .ok ⟨#[], Array.replicate (twoPow (min bits 16)) 0,
      twoPow bits, minFree, []⟩ := by
    rw [create, if_neg (Nat.not_lt.mpr few), if_pos]
    rw [Bool.and_eq_true, decide_eq_true_eq, decide_eq_true_eq]
    exact ⟨low, high⟩
  refine ⟨_, hcreate, rfl, rfl, fun cs => ?_⟩
  obtain ⟨is, t, chain, runs, hlen, h, _⟩ := (keeps_create hcreate).runAll cs
  rw [List.nil_append] at h
  refine ⟨is, t, runs, hlen, h.conses hlen, fun c => ?_, fun more j v hv => ?_⟩
  · obtain ⟨i, u, _, run, _, _, known, new⟩ := h.run c
    have hput : (∃ v, c = .put v ∧ .put v ∈ cs) ↔
        ∃ v j, c = .put v ∧ (.put v, j) ∈ cs.zip is := by
      constructor
      · rintro ⟨v, rfl, hv⟩
        obtain ⟨j, hj⟩ := exists_answer hlen hv
        exact ⟨v, j, rfl, hj⟩
      · rintro ⟨v, j, rfl, hj⟩
        exact ⟨v, rfl, (List.of_mem_zip hj).1⟩
    exact ⟨i, u, run, fun hk => known (hput.mp hk), fun hn => new (mt hput.mpr hn)⟩
  · obtain ⟨_, u, _, runs', _, _, hgrown⟩ := h.runAll more
    rw [runs']
    exact value_of_prefix hgrown hv

/-- A value whose hash says nothing. -/
structure Colliding where
  number : Nat
deriving DecidableEq

instance : Hashable Colliding := ⟨fun _ => 0⟩

theorem runAll_conses_colliding : ∃ t₀ : Table Colliding, create 1 0.25 = .ok t₀ ∧
    (t₀.runAll [.put ⟨5⟩, .put ⟨7⟩, .put ⟨5⟩]).1 = [.ok 1, .ok 2, .ok 1] ∧
    ∀ cs, ∃ is t, t₀.runAll cs = (is.map .ok, t) ∧ t.Conses cs is := by
  obtain ⟨t₀, hcreate, _, _, h⟩ :=
    runAll_conses (α := Colliding) (show 1 ≤ 31 by decide) (show 0.0 ≤ 0.25 by decide)
      (show 0.25 < 1.0 by decide)
  refine ⟨t₀, hcreate, ?_, fun cs => ?_⟩
  · obtain rfl := Except.ok.inj hcreate
    rfl
  · obtain ⟨is, t, runs, _, hconses, _⟩ := h cs
    exact ⟨is, t, runs, hconses⟩

end Factbase.Diagram.Table
