import Factbase.Proofs.Diagram.Quantifier

/-!
# What is known is not stored again

A result that a cache has lost is worked out once more. This file says why that stores nothing:
every edge that comes up on the way is there from the first time.

* `Frugal`: an edge that the manager has is made without storing a decision;
* `Explored m f vs`: the manager has all edges that come up when the variables `vs` are
  quantified away from `f`;
* `Manager.Thorough m`: the manager is well-formed, and whatever its cache keeps is explored;
* `Repeatable`: what working a result out promises, the first time and every other time;
* `frugal_iteWithin`: **if-then-else stores nothing for a result that is there**;
* `traced_projectWithin`: **quantification leaves an explored edge**, and stores nothing for one.

The intermediate results of a quantification need not be parts of its result, so that the second
statement needs `Explored` where the first one gets by with the result alone.
-/

namespace Factbase.Diagram.Manager

/-! ## 1. Explored edges -/

/-- The manager has an edge with the value. -/
def Has (m : Manager) (value : Assignment → Bool) : Prop :=
  ∃ e, m.Holds e ∧ ∀ ρ, m.eval ρ e = value ρ

/-- **The manager has all edges that come up when the variables are quantified away.** -/
inductive Explored (m : Manager) : Edge → List Nat → Prop
  | leaf {f : Edge} {vs : List Nat} (ht : f.isTerminal = true) : Explored m f vs
  | done {f : Edge} : Explored m f []
  /-- The edge does not depend on the topmost variable of the set. -/
  | skip {f : Edge} {v : Nat} {vs : List Nat} (hlt : m.order.levelAt v < m.rank f)
      (rest : Explored m f vs) : Explored m f (v :: vs)
  /-- The low child has the value true, and the high one is not looked at. -/
  | settle {f : Edge} {vs : List Nat} (low : Explored m (m.lowOf f) vs)
      (always : ∀ ρ, m.Somewhere vs ρ (m.lowOf f)) : Explored m f (m.varOf f :: vs)
  | join {f : Edge} {vs : List Nat} (low : Explored m (m.lowOf f) vs)
      (high : Explored m (m.highOf f) vs) (known : m.Has (m.anywhere (m.varOf f :: vs) f)) :
      Explored m f (m.varOf f :: vs)
  | keep {f : Edge} {v : Nat} {vs : List Nat} (hlt : m.rank f < m.order.levelAt v)
      (low : Explored m (m.lowOf f) (v :: vs)) (high : Explored m (m.highOf f) (v :: vs))
      (known : m.Has (m.anywhere (v :: vs) f)) : Explored m f (v :: vs)

/-- The edges that come up for a key are there. For a choice those are parts of the result. -/
def Covers (m : Manager) : OpKey → Prop
  | .choose _ _ _ => True
  | .project f vars => ∃ vs, m.IsVarSet vars vs ∧ m.Explored f vs

/-- **The manager is well-formed, and what its cache keeps is explored.** -/
structure Thorough (m : Manager) : Prop extends m.WellFormed where
  covered : ∀ key r, m.cache.Keeps key r → m.Covers key

theorem IsVarSet.allocated {m : Manager} (h : m.Founded) : ∀ {vs : List Nat} {e : Edge},
    m.IsVarSet e vs → ∀ v ∈ vs, m.order.Allocated v
  | v :: vs, e, ⟨he, ht, _, hv, _, hrest⟩, w, hw => by
      rcases List.mem_cons.mp hw with rfl | hw
      · exact hv ▸ h.allocated he ht
      · exact hrest.allocated h w hw

/-- Nodes are only appended, and variables are only added below all others. -/
structure Widens (m m' : Manager) : Prop where
  nodes : m.Extends m'
  level : ∀ v, m.order.Allocated v → m'.order.levelAt v = m.order.levelAt v
  room : m.numVars ≤ m'.numVars

theorem Grows.widens {m m' : Manager} (g : m.Grows m') : m.Widens m' :=
  ⟨g.nodes, fun _ _ => by rw [g.order], by rw [numVars, numVars, g.order]⟩

section Widens

variable {m m' : Manager} (w : m.Widens m') (h : m.Founded)

include w h

theorem Widens.rank_eq {f : Edge} (hf : m.Holds f) (ht : f.isTerminal = false) :
    m'.rank f = m.rank f := by
  rw [rank_of_not_terminal ht, rank_of_not_terminal ht, w.nodes.varOf_eq hf,
    w.level _ (h.allocated hf ht)]

theorem Widens.rank_le {f : Edge} (hf : m.Holds f) : m.rank f ≤ m'.rank f := by
  cases ht : f.isTerminal with
  | false => exact (w.rank_eq h hf ht).ge
  | true =>
      rw [rank_of_terminal ht, rank_of_terminal ht]
      exact w.room

theorem Widens.has {value : Assignment → Bool} : m.Has value → m'.Has value
  | ⟨e, he, hval⟩ => ⟨e, w.nodes.holds he, fun ρ => (w.nodes.eval_eq h he ρ).trans (hval ρ)⟩

theorem Widens.has_anywhere {f : Edge} (hf : m.Holds f) {vs : List Nat}
    (known : m.Has (m.anywhere vs f)) : m'.Has (m'.anywhere vs f) := by
  obtain ⟨e, he, hval⟩ := w.has h known
  exact ⟨e, he, fun ρ => (hval ρ).trans (anywhere_eq_iff.mpr (w.nodes.somewhere_iff h hf).symm)⟩

/-- **Explored edges stay explored.** -/
theorem Widens.explored {f : Edge} {vs : List Nat} (x : m.Explored f vs) : m.Holds f →
    (∀ v ∈ vs, m.order.Allocated v) → m'.Explored f vs := by
  induction x with
  | leaf ht => exact fun _ _ => .leaf ht
  | done => exact fun _ _ => .done
  | @skip f v vs hlt _ ih =>
      intro hf hvs
      have hv := hvs v List.mem_cons_self
      refine .skip ?_ (ih hf fun v hv => hvs v (List.mem_cons_of_mem _ hv))
      rw [w.level v hv]
      exact Nat.lt_of_lt_of_le hlt (w.rank_le h hf)
  | @settle f vs _ always ih =>
      intro hf hvs
      cases ht : f.isTerminal with
      | true => exact .leaf ht
      | false =>
          have hlow := h.holds_lowOf hf ht
          have ihlow := ih hlow fun v hv => hvs v (List.mem_cons_of_mem _ hv)
          rw [← w.nodes.varOf_eq hf]
          rw [← w.nodes.lowOf_eq hf] at ihlow
          refine .settle ihlow fun ρ => ?_
          rw [w.nodes.lowOf_eq hf]
          exact (w.nodes.somewhere_iff h hlow).mpr (always ρ)
  | @join f vs _ _ known ihl ihh =>
      intro hf hvs
      cases ht : f.isTerminal with
      | true => exact .leaf ht
      | false =>
          have hrest := fun v hv => hvs v (List.mem_cons_of_mem _ hv)
          have ihlow := ihl (h.holds_lowOf hf ht) hrest
          have ihhigh := ihh (h.holds_highOf hf ht) hrest
          have known := w.has_anywhere h hf known
          rw [← w.nodes.varOf_eq hf] at known ⊢
          rw [← w.nodes.lowOf_eq hf] at ihlow
          rw [← w.nodes.highOf_eq hf] at ihhigh
          exact .join ihlow ihhigh known
  | @keep f v vs hlt _ _ known ihl ihh =>
      intro hf hvs
      have hv := hvs v List.mem_cons_self
      have ht := h.not_terminal_of_rank_le hv hlt.le
      have ihlow := ihl (h.holds_lowOf hf ht) hvs
      have ihhigh := ihh (h.holds_highOf hf ht) hvs
      rw [← w.nodes.lowOf_eq hf] at ihlow
      rw [← w.nodes.highOf_eq hf] at ihhigh
      refine .keep ?_ ihlow ihhigh (w.has_anywhere h hf known)
      rwa [w.rank_eq h hf ht, w.level v hv]

theorem Widens.covers {key : OpKey} {r : Edge} (ha : m.Answers key r) (c : m.Covers key) :
    m'.Covers key := by
  cases key with
  | choose f g k => exact trivial
  | project f vars =>
      obtain ⟨vs, hset, x⟩ := c
      exact ⟨vs, w.nodes.isVarSet hset, w.explored h x ha.1 (hset.allocated h)⟩

end Widens

/-- A thorough manager stays so where its cache keeps nothing new. -/
theorem Thorough.widen {m m' : Manager} (t : m.Thorough) (w : m.Widens m') (h' : m'.WellFormed)
    (kept : ∀ key r, m'.cache.Keeps key r → m.cache.Keeps key r) : m'.Thorough :=
  ⟨h', fun key r hk =>
    w.covers t.toFounded (t.cached key r (kept key r hk)) (t.covered key r (kept key r hk))⟩

/-- A right result may be kept where the edges that come up for it are there. -/
theorem Thorough.remember {m : Manager} (t : m.Thorough) {key : OpKey} {r : Edge}
    (ha : m.Answers key r) (c : m.Covers key) :
    ({ m with cache := m.cache.insert key r } : Manager).Thorough := by
  have n : m.Next { m with cache := m.cache.insert key r } :=
    (ends_remember t.toWellFormed ha).of_ok rfl
  refine ⟨n.1, fun key' r' hk => ?_⟩
  rcases Cache.keeps_insert hk with ⟨rfl, rfl⟩ | hk
  · exact n.2.widens.covers t.toFounded ha c
  · exact n.2.widens.covers t.toFounded (t.cached key' r' hk) (t.covered key' r' hk)

/-! ## 2. Decisions -/

/-- A table grows by one value at most, and the index of that value is new. -/
theorem put_size {t u : Table Node} {n : Node} {i : Nat} (run : t.put n = (.ok i, u)) :
    u.size = t.size ∨ i = t.size + 1 := by
  unfold Table.put at run
  split at run
  · cases (Prod.mk.inj run).1
  · exact Or.inl (congrArg Table.size (Prod.mk.inj run).2).symm
  · refine Or.inr ?_
    dsimp only at run
    split at run
    · exact (Except.ok.inj (Prod.mk.inj run).1).symm.trans (Table.add_fst t n)
    · exact (Except.ok.inj (Prod.mk.inj run).1).symm.trans (Table.add_fst t n)

theorem of_intern_eq {m m' : Manager} {n : Node} {i : Nat} (run : intern n m = .ok i m') :
    m'.cache = m.cache ∧ (m'.numNodes = m.numNodes ∨ i = m.numNodes + 1) := by
  unfold intern at run
  dsimp only at run
  cases hput : m.nodes.put n with
  | mk answer nodes =>
      rw [hput] at run
      cases answer with
      | error fault => cases run
      | ok index =>
          obtain ⟨rfl, rfl⟩ := EStateM.Result.ok.inj run
          exact ⟨rfl, put_size hput⟩

theorem of_shared_eq {m m' : Manager} {v : Nat} {low high r : Edge}
    (run : shared v low high m = .ok r m') :
    m'.cache = m.cache ∧ (m'.numNodes = m.numNodes ∨ r.index = m.numNodes + 1) := by
  unfold shared at run
  by_cases same : low = high
  · rw [if_pos same] at run
    obtain ⟨rfl, rfl⟩ := EStateM.Result.ok.inj run
    exact ⟨rfl, Or.inl rfl⟩
  · rw [if_neg same] at run
    obtain ⟨i, m₁, run₁, run⟩ := run_ok_of_bind run
    obtain ⟨rfl, rfl⟩ := EStateM.Result.ok.inj run
    rw [Edge.index_ofIndex]
    exact of_intern_eq run₁

/-- **A decision leaves the cache alone, and the edge to a new one is new.** -/
theorem of_mkNode_eq {m m' : Manager} {v : Nat} {low high r : Edge}
    (run : mkNode v low high m = .ok r m') :
    m'.cache = m.cache ∧ (m'.numNodes = m.numNodes ∨ r.index = m.numNodes + 1) := by
  unfold mkNode at run
  by_cases h0 : v = 0
  · rw [if_pos h0] at run
    cases run
  rw [if_neg h0] at run
  by_cases hn : high.negated = true
  · rw [if_pos hn] at run
    obtain ⟨_, m₁, asked, run₁⟩ := run_ok_of_bind run
    obtain ⟨_, m₂, asked', run₂⟩ := run_ok_of_bind run₁
    obtain ⟨r', m₃, run₃, last⟩ := run_ok_of_bind run₂
    obtain rfl := (of_ask_eq asked).2
    obtain rfl := (of_ask_eq asked').2
    obtain ⟨rfl, rfl⟩ := EStateM.Result.ok.inj last
    rw [Edge.index_neg]
    exact of_shared_eq run₃
  · rw [if_neg hn] at run
    exact of_shared_eq run

/-- **The program leaves a thorough manager, and stores no decision for an edge that is
there.** -/
def Frugal (act : Op Edge) (m : Manager) : Prop :=
  ∀ r m', act m = .ok r m' → m'.Thorough ∧ (m.Holds r → m'.numNodes = m.numNodes)

theorem frugal_mkNode {m : Manager} (t : m.Thorough) {v : Nat} {low high : Edge}
    (hv : m.order.Allocated v) (hl : m.Holds low) (hh : m.Holds high)
    (below : m.order.levelAt v < m.rank low) (below' : m.order.levelAt v < m.rank high) :
    Frugal (mkNode v low high) m := by
  intro r m' run
  obtain ⟨n, _, _⟩ := (makes_mkNode t.toWellFormed hv hl hh below below').of_ok run
  obtain ⟨hcache, hsize⟩ := of_mkNode_eq run
  refine ⟨t.widen n.2.widens n.1 fun key k hk => hcache ▸ hk, fun hr => ?_⟩
  rcases hsize with hsize | hsize
  · exact hsize
  · exact absurd (hsize ▸ hr.2) (Nat.not_succ_le_self _)

/-! ## 3. Results that are looked up or worked out -/

/-- The manager behind a look-up, which is counted. -/
def counted (m : Manager) (key : OpKey) : Manager := { m with cache := (m.cache.get key).2 }

theorem lookUp_eq (m : Manager) (key : OpKey) :
    lookUp key m = .ok (m.cache.find? key) (m.counted key) := by
  rw [← (m.cache.get_eq key).1]
  rfl

theorem Thorough.counted {m : Manager} (t : m.Thorough) (key : OpKey) :
    (m.counted key).Thorough ∧ m.Next (m.counted key) := by
  obtain ⟨n, _⟩ := (ends_lookUp t.toWellFormed key).of_ok (lookUp_eq m key)
  refine ⟨t.widen n.2.widens n.1 fun key' r ⟨p, hp⟩ => ⟨p, ?_⟩, n⟩
  rwa [← (m.cache.get_eq key).2]

section Memo

variable {m : Manager} {key : OpKey} {work : Op Edge} {flip : Bool}

theorem memo_hit {known : Edge} (hit : m.cache.find? key = some known) :
    memo key flip work m = .ok (known.complementIf flip) (m.counted key) := by
  unfold memo
  rw [bind_of_ok (lookUp_eq m key), hit]
  rfl

theorem memo_miss (miss : m.cache.find? key = none) : memo key flip work m =
    (do
      let result ← work
      remember key result
      return result.complementIf flip) (m.counted key) := by
  unfold memo
  rw [bind_of_ok (lookUp_eq m key), miss]

end Memo

/-- **What working a result out promises**, in this manager and in later ones. -/
structure Repeatable (m : Manager) (key : OpKey) (value : Assignment → Bool) (work : Op Edge) :
    Prop where
  asks : m.Asks key value
  made : ∀ m', m.Next m' → Makes work m' value
  /-- Behind it the edges that come up are there. -/
  traced : ∀ m' r m'', m.Next m' → m'.Thorough → work m' = .ok r m'' →
    m''.Thorough ∧ m''.Covers key
  /-- Any other time it stores nothing. -/
  idle : ∀ m' known r m'', m.Next m' → m'.Thorough → m'.Answers key known → m'.Covers key →
    work m' = .ok r m'' → m''.numNodes = m'.numNodes

/-- **A result that is looked up or worked out is covered**, and costs nothing where it was
covered before. -/
theorem Repeatable.memo {m : Manager} {key : OpKey} {value : Assignment → Bool} {work : Op Edge}
    (w : m.Repeatable key value work) (t : m.Thorough) {flip : Bool} {r : Edge} {m' : Manager}
    (run : memo key flip work m = .ok r m') : m'.Thorough ∧ m'.Covers key ∧
      ∀ known, m.Answers key known → m.Covers key → m'.numNodes = m.numNodes := by
  obtain ⟨tc, n⟩ := t.counted key
  cases found : m.cache.find? key with
  | some known =>
      rw [memo_hit found] at run
      obtain ⟨_, rfl⟩ := EStateM.Result.ok.inj run
      have hk := Cache.keeps_of_find? found
      exact ⟨tc, n.2.widens.covers t.toFounded (t.cached key known hk) (t.covered key known hk),
        fun _ _ _ => rfl⟩
  | none =>
      rw [memo_miss found] at run
      obtain ⟨result, m₁, run₁, kept⟩ := run_ok_of_bind run
      obtain ⟨_, rfl⟩ := EStateM.Result.ok.inj kept
      obtain ⟨n₁, hr, hval⟩ := (w.made _ n).of_ok run₁
      obtain ⟨t₁, c₁⟩ := w.traced _ _ _ n tc run₁
      have ha := (w.asks _ result (n.trans n₁)).mpr ⟨hr, hval⟩
      have n₂ := (ends_remember t₁.toWellFormed ha).of_ok rfl
      exact ⟨t₁.remember ha c₁, n₂.2.widens.covers t₁.toFounded ha c₁, fun known hk c =>
        w.idle (m.counted key) known result m₁ n tc (n.2.nodes.answers t.toFounded hk)
          (n.2.widens.covers t.toFounded hk c) run₁⟩

/-! ## 4. If-then-else -/

section Branches

variable {m : Manager} (h : m.WellFormed)

include h

/-- **What a decision on a variable has the value of, has edges for both branches** where neither
branch depends on that variable. -/
theorem Has.branches {value lower upper : Assignment → Bool} (known : m.Has value) {v : Nat}
    (hv : m.order.Allocated v) (above : ∀ e, m.Holds e → (∀ ρ, m.eval ρ e = value ρ) →
      m.order.levelAt v ≤ m.rank e)
    (hval : ∀ ρ, value ρ = if ρ v then upper ρ else lower ρ)
    (freeLow : ∀ ρ b, lower (Function.update ρ v b) = lower ρ)
    (freeHigh : ∀ ρ b, upper (Function.update ρ v b) = upper ρ) :
    m.Has lower ∧ m.Has upper := by
  obtain ⟨e, he, hev⟩ := known
  have hle := above e he hev
  obtain ⟨⟨hl, hh⟩, below⟩ := h.cofactorsOf_held he hv
  obtain ⟨hbl, hbh⟩ := below hle
  refine ⟨⟨_, hl, fun ρ => ?_⟩, ⟨_, hh, fun ρ => ?_⟩⟩
  · have := h.eval_cofactorsOf he hv hle (Function.update ρ v false)
    rw [hev, hval, Function.update_self, freeLow, if_neg Bool.false_ne_true,
      if_neg Bool.false_ne_true, h.eval_update hl hbl] at this
    exact this.symm
  · have := h.eval_cofactorsOf he hv hle (Function.update ρ v true)
    rw [hev, hval, Function.update_self, freeHigh, if_pos rfl, if_pos rfl,
      h.eval_update hh hbh] at this
    exact this.symm

end Branches

/-- An edge with a value that an earlier manager has an edge for is that edge. -/
theorem Next.holds_of_has {m m' : Manager} (n : m.Next m') (h : m.WellFormed) {r : Edge}
    (hr : m'.Holds r) {value : Assignment → Bool} (hval : ∀ ρ, m'.eval ρ r = value ρ)
    (known : m.Has value) : m.Holds r := by
  obtain ⟨e, he, hev⟩ := known
  have same : r = e := n.1.eq_of_eval_eq hr (n.holds he) fun ρ => by
    rw [hval, n.eval_eq h he, hev]
  exact same ▸ he

section Choosing

variable {depth : Nat} (ih : ∀ {m : Manager} {t : Triple}, m.Thorough → t.Held m →
  t.weight < depth → Frugal (iteWithin depth t.cond t.yes t.no) m)

include ih

/-- **Splitting a triple stores nothing for a result that is there**: the results for both sides
are its branches, and so they are there as well. -/
theorem frugal_splitWithin {m m' : Manager} (h : m.WellFormed) (n : m.Next m') (t' : m'.Thorough)
    {t : Triple} (ht : t.Held m) (hw : t.weight ≤ depth) {v : Nat} (hv : m.order.Allocated v)
    (top : m.order.levelAt v = t.top m) :
    Frugal (splitWithin depth v (m.lowTriple t v) (m.highTriple t v)) m' := by
  intro r m₃ run
  have hlow := held_lowTriple h ht hv
  have hhigh := held_highTriple h ht hv
  obtain ⟨hlt, hlt'⟩ := levelAt_lt_top_lowTriple h ht hv top
  obtain ⟨hw₀, hw₁⟩ := weight_lowTriple_lt h ht hv top
  have hlv := h.order.levelAt_lt hv
  obtain ⟨n₃, hr, hval⟩ := (makes_splitWithin (makes_iteWithin depth) h n ht hw hv top).of_ok run
  obtain ⟨low, m₁, run₁, rest⟩ := run_ok_of_bind run
  obtain ⟨high, m₂, run₂, last⟩ := run_ok_of_bind rest
  obtain ⟨n₁, hr₁, hval₁⟩ := (makes_iteWithin depth n.1 (n.held hlow) (by omega)).of_ok run₁
  have hn₁ := n.trans n₁
  obtain ⟨n₂, hr₂, hval₂⟩ :=
    (makes_iteWithin depth hn₁.1 (hn₁.held hhigh) (by omega)).of_ok run₂
  have hn₂ := hn₁.trans n₂
  obtain ⟨t₁, idle₁⟩ := ih t' (n.held hlow) (by omega) _ _ run₁
  obtain ⟨t₂, idle₂⟩ := ih t₁ (hn₁.held hhigh) (by omega) _ _ run₂
  have hval₁ : ∀ ρ, m₁.eval ρ low = (m.lowTriple t v).value m ρ := fun ρ =>
    (hval₁ ρ).trans (n.value_eq h hlow ρ)
  have hval₂ : ∀ ρ, m₂.eval ρ high = (m.highTriple t v).value m ρ := fun ρ =>
    (hval₂ ρ).trans (hn₁.value_eq h hhigh ρ)
  obtain ⟨hv₂, below, below'⟩ := hn₂.fit_split h ht hv top (n₂.holds hr₁) hr₂
    (fun ρ => (n₂.eval_eq n₁.1 hr₁ ρ).trans (hval₁ ρ)) hval₂
  obtain ⟨t₃, idle₃⟩ := frugal_mkNode t₂ hv₂ (n₂.holds hr₁) hr₂ below below' _ _ last
  refine ⟨t₃, fun hold => ?_⟩
  have known : m'.Has fun ρ => t.value m ρ :=
    ⟨r, hold, fun ρ => (n₃.eval_eq n.1 hold ρ).symm.trans (hval ρ)⟩
  obtain ⟨knownLow, knownHigh⟩ := known.branches n.1 (by rwa [n.2.order])
    (fun e he hev => Nat.not_lt.mp fun hlt => by
      rw [n.2.order, top] at hlt
      exact Nat.lt_irrefl _ (n.lt_rank_of_value h ht hlt (hlt.trans (top ▸ hlv)) he hev))
    (fun ρ => value_eq_cofactors h ht hv top ρ) (fun ρ b => value_update h hlow hlt ρ b)
    (fun ρ b => value_update h hhigh hlt' ρ b)
  have hold₁ := n₁.holds_of_has n.1 hr₁ hval₁ knownLow
  have hold₂ := (n₁.trans n₂).holds_of_has n.1 hr₂ hval₂ knownHigh
  rw [idle₃ (n₂.holds (n₁.holds hold)), idle₂ (n₁.holds hold₂), idle₁ hold₁]

/-- What a choice asks for may be worked out again and again. -/
theorem repeatable_splitWithin {m : Manager} (h : m.WellFormed) {t : Triple} (ht : t.Held m)
    (hw : t.weight ≤ depth) {v : Nat} (hv : m.order.Allocated v)
    (top : m.order.levelAt v = t.top m) :
    m.Repeatable (.choose t.cond t.yes t.no) (fun ρ => t.value m ρ)
      (splitWithin depth v (m.lowTriple t v) (m.highTriple t v)) := by
  have made := fun m' (n : m.Next m') =>
    makes_splitWithin (makes_iteWithin depth) h n ht hw hv top
  refine ⟨asks_choose h ht, made, fun m' r m'' n t' run => ?_,
    fun m' known r m'' n t' hk _ run => ?_⟩
  · exact ⟨(frugal_splitWithin ih h n t' ht hw hv top _ _ run).1, trivial⟩
  · obtain ⟨n', hr, hval⟩ := (made m' n).of_ok run
    have hold := n'.holds_of_has n.1 hr hval ⟨known, (asks_choose h ht m' known n).mp hk⟩
    exact (frugal_splitWithin ih h n t' ht hw hv top _ _ run).2 hold

end Choosing

/-- **If-then-else stores nothing for a result that is there.** -/
theorem frugal_iteWithin : ∀ (depth : Nat) {m : Manager} {t : Triple}, m.Thorough → t.Held m →
    t.weight < depth → Frugal (iteWithin depth t.cond t.yes t.no) m := by
  intro depth
  induction depth with
  | zero => exact fun _ _ hlt => absurd hlt (Nat.not_lt_zero _)
  | succ depth ih =>
      intro m t th ht hlt r m' run
      have h := th.toWellFormed
      obtain ⟨n, hr, hval⟩ := (makes_iteWithin (depth + 1) h ht hlt).of_ok run
      cases hs : t.quick? with
      | some answer =>
          rw [iteWithin_settled ht hs] at run
          obtain ⟨_, rfl⟩ := EStateM.Result.ok.inj run
          exact ⟨th, fun _ => rfl⟩
      | none =>
          obtain ⟨v, hv, hlevel, hrun⟩ := iteWithin_normal h ht hs depth
          obtain ⟨hnormal, hw, _⟩ := normal_held h ht
          rw [hrun] at run
          have rep := repeatable_splitWithin ih h hnormal (by omega) hv hlevel
          obtain ⟨t', _, idle⟩ := rep.memo th run
          refine ⟨t', fun hold => idle (r.complementIf (m.normal t).2) ?_ trivial⟩
          refine (asks_choose h hnormal m _ (.refl h)).mpr
            ⟨holds_complementIf.mpr hold, fun ρ => ?_⟩
          rw [h.eval_complementIf hold, ← n.eval_eq h hold, hval]
          show ((m.normal t).2 ^^ t.value m ρ) = _
          rw [← normal_value h ht, ← Bool.xor_assoc, Bool.xor_self, Bool.false_xor]

section Operations

variable {m : Manager} (t : m.Thorough) {f g k : Edge} (hf : m.Holds f) (hg : m.Holds g)

include t hf hg

theorem frugal_ite (hk : m.Holds k) : Frugal (ite f g k) m := by
  intro r m' run
  unfold ite at run
  exact frugal_iteWithin _ (t := ⟨f, g, k⟩) t ⟨hf, hg, hk⟩ (weight_lt_fuel hf hg hk) _ _ run

theorem frugal_disj : Frugal (disj f g) m := frugal_ite t hf t.holds_one hg

end Operations

/-! ## 5. Quantification -/

/-- **Behind the program the edge is explored**, and the program stores nothing where it was
explored before. -/
def Traces (act : Op Edge) (m : Manager) (f : Edge) (vs : List Nat) : Prop :=
  ∀ r m', act m = .ok r m' → m'.Thorough ∧ m'.Explored f vs ∧
    (m.Explored f vs → m'.numNodes = m.numNodes)

section Inversion

variable {m : Manager} {f : Edge} (ht : f.isTerminal = false) {v : Nat} {vs : List Nat}

include ht

/-- An edge that decides on the first variable has been joined from its children. -/
theorem Explored.of_own (x : m.Explored f (v :: vs)) (hv : m.varOf f = v) :
    m.Explored (m.lowOf f) vs ∧ ((∀ ρ, m.Somewhere vs ρ (m.lowOf f)) ∨
      m.Explored (m.highOf f) vs ∧ m.Has (m.anywhere (v :: vs) f)) := by
  have hrank := rank_of_not_terminal ht (m := m)
  rw [hv] at hrank
  cases x with
  | leaf htf => rw [ht] at htf; cases htf
  | skip hlt _ => omega
  | settle low always => exact ⟨low, Or.inl always⟩
  | join low high known => exact ⟨low, Or.inr ⟨high, known⟩⟩
  | keep hlt _ _ _ => omega

/-- An edge above the first variable has been kept over the results for its children. -/
theorem Explored.of_above (x : m.Explored f (v :: vs)) (hlt : m.rank f < m.order.levelAt v) :
    m.Explored (m.lowOf f) (v :: vs) ∧ m.Explored (m.highOf f) (v :: vs) ∧
      m.Has (m.anywhere (v :: vs) f) := by
  have hrank := rank_of_not_terminal ht (m := m)
  cases x with
  | leaf htf => rw [ht] at htf; cases htf
  | skip hlt' _ => omega
  | settle _ _ => omega
  | join _ _ _ => omega
  | keep _ low high known => exact ⟨low, high, known⟩

/-- An edge below the first variable has been explored for the others. -/
theorem Explored.of_below (x : m.Explored f (v :: vs)) (hlt : m.order.levelAt v < m.rank f) :
    m.Explored f vs := by
  have hrank := rank_of_not_terminal ht (m := m)
  cases x with
  | leaf htf => rw [ht] at htf; cases htf
  | skip _ rest => exact rest
  | settle _ _ => omega
  | join _ _ _ => omega
  | keep hlt' _ _ _ => omega

end Inversion

section Quantifying

variable {depth : Nat}
  (ih : ∀ {m : Manager} {f vars : Edge} {vs : List Nat}, m.Thorough → m.Holds f →
    m.IsVarSet vars vs → f.index + vars.index < depth →
    Traces (projectWithin depth f vars) m f vs)
  {m : Manager} (t : m.Thorough) {f vars : Edge} (hf : m.Holds f) (ht : f.isTerminal = false)
  {v : Nat} {vs : List Nat}

include ih t hf ht

theorem traced_joinStep (hset : m.IsVarSet vars vs) (hdepth : f.index + vars.index ≤ depth) :
    Traces (joinStep (projectWithin depth) disj vars (m.lowOf f) (m.highOf f)) m f
      (m.varOf f :: vs) := by
  intro r m₃ run
  have h := t.toWellFormed
  have hfd := t.toFounded
  have hilow := h.index_lowOf_lt hf ht
  have hihigh := h.index_highOf_lt hf ht
  have hlow := h.holds_lowOf hf ht
  have hhigh := h.holds_highOf hf ht
  have hvs := hset.allocated hfd
  obtain ⟨n₃, hr, hval⟩ :=
    (makes_joinStep (makes_projectWithin depth) h hf ht hset hdepth).of_ok run
  obtain ⟨low, m₁, run₁, rest⟩ := run_ok_of_bind run
  obtain ⟨n₁, hr₁, hval₁⟩ := (makes_projectWithin depth h hlow hset (by omega)).of_ok run₁
  obtain ⟨t₁, x₁, idle₁⟩ := ih t hlow hset (by omega) _ _ run₁
  have always : low = .one ↔ ∀ ρ, m.Somewhere vs ρ (m.lowOf f) := by
    constructor
    · intro hone ρ
      exact anywhere_eq_true_iff.mp ((hval₁ ρ).symm.trans (by rw [hone, eval_one]))
    · intro hall
      refine n₁.1.eq_of_eval_eq hr₁ n₁.1.holds_one fun ρ => ?_
      rw [hval₁, eval_one]
      exact anywhere_eq_true_iff.mpr (hall ρ)
  by_cases hdone : low = .one
  · rw [if_pos hdone] at rest
    obtain ⟨_, rfl⟩ := EStateM.Result.ok.inj rest
    refine ⟨t₁, ?_, fun x => idle₁ (x.of_own ht rfl).1⟩
    rw [← n₁.2.nodes.varOf_eq hf]
    rw [← n₁.2.nodes.lowOf_eq hf] at x₁
    refine .settle x₁ fun ρ => ?_
    rw [n₁.2.nodes.lowOf_eq hf, n₁.2.nodes.somewhere_iff hfd hlow]
    exact always.mp hdone ρ
  · rw [if_neg hdone] at rest
    obtain ⟨high, m₂, run₂, last⟩ := run_ok_of_bind rest
    have hset₁ := n₁.2.nodes.isVarSet hset
    obtain ⟨n₂, hr₂, hval₂⟩ :=
      (makes_projectWithin depth n₁.1 (n₁.holds hhigh) hset₁ (by omega)).of_ok run₂
    obtain ⟨t₂, x₂, idle₂⟩ := ih t₁ (n₁.holds hhigh) hset₁ (by omega) _ _ run₂
    obtain ⟨n', _, _⟩ := (makes_disj n₂.1 (n₂.holds hr₁) hr₂).of_ok last
    obtain ⟨t₃, idle₃⟩ := frugal_disj t₂ (n₂.holds hr₁) hr₂ _ _ last
    refine ⟨t₃, ?_, fun x => ?_⟩
    · have xl := (n₂.trans n').2.widens.explored n₁.1.toFounded x₁ (n₁.holds hlow)
        (hset₁.allocated n₁.1.toFounded)
      have xh := n'.2.widens.explored n₂.1.toFounded x₂ ((n₁.trans n₂).holds hhigh)
        ((n₂.2.nodes.isVarSet hset₁).allocated n₂.1.toFounded)
      rw [← n₃.2.nodes.lowOf_eq hf] at xl
      rw [← n₃.2.nodes.highOf_eq hf] at xh
      rw [← n₃.2.nodes.varOf_eq hf] at hval ⊢
      refine .join xl xh ⟨r, hr, fun ρ => ?_⟩
      rw [n₃.anywhere_eq h hf]
      exact hval ρ
    · obtain ⟨xl, hall | ⟨xh, known⟩⟩ := x.of_own ht rfl
      · exact absurd (always.mpr hall) hdone
      · have hold := n₃.holds_of_has h hr hval known
        have xh := n₁.2.widens.explored hfd xh hhigh hvs
        rw [idle₃ ((n₁.trans n₂).holds hold), idle₂ xh, idle₁ xl]

theorem traced_keepStep (hset : m.IsVarSet vars (v :: vs))
    (hlt : m.rank f < m.order.levelAt v) (hdepth : f.index + vars.index ≤ depth) :
    Traces (keepStep (projectWithin depth) mkNode f vars (m.lowOf f) (m.highOf f)) m f
      (v :: vs) := by
  intro r m₃ run
  have h := t.toWellFormed
  have hfd := t.toFounded
  have hilow := h.index_lowOf_lt hf ht
  have hihigh := h.index_highOf_lt hf ht
  have hlow := h.holds_lowOf hf ht
  have hhigh := h.holds_highOf hf ht
  have hrank : m.rank vars = m.order.levelAt v := by
    rw [rank_of_not_terminal hset.2.1, hset.2.2.2.1]
  obtain ⟨n₃, hr, hval⟩ :=
    (makes_keepStep (makes_projectWithin depth) h hf ht hset (by omega) hdepth).of_ok run
  obtain ⟨low, m₁, run₁, rest⟩ := run_ok_of_bind run
  obtain ⟨high, m₂, run₂, rest'⟩ := run_ok_of_bind rest
  obtain ⟨node, m₂', asked, last⟩ := run_ok_of_bind rest'
  obtain ⟨hnode, rfl⟩ := of_ask_eq asked
  have hset₁ := fun {m'} (n : m.Next m') => n.2.nodes.isVarSet hset
  obtain ⟨n₁, hr₁, hval₁⟩ := (makes_projectWithin depth h hlow hset (by omega)).of_ok run₁
  obtain ⟨n₂, hr₂, hval₂⟩ :=
    (makes_projectWithin depth n₁.1 (n₁.holds hhigh) (hset₁ n₁) (by omega)).of_ok run₂
  have n := n₁.trans n₂
  obtain ⟨t₁, x₁, idle₁⟩ := ih t hlow hset (by omega) _ _ run₁
  obtain ⟨t₂, x₂, idle₂⟩ := ih t₁ (n₁.holds hhigh) (hset₁ n₁) (by omega) _ _ run₂
  obtain ⟨hvar, below, below'⟩ := n.fit_keep h hf ht hnode (n₂.holds hr₁) hr₂
    (fun ρ => (n₂.eval_eq n₁.1 hr₁ ρ).trans (hval₁ ρ))
    (fun ρ => (hval₂ ρ).trans (n₁.anywhere_eq h hhigh _ ρ))
  obtain ⟨n', _, _⟩ := (makes_mkNode n.1 hvar (n₂.holds hr₁) hr₂ below below').of_ok last
  obtain ⟨t₃, idle₃⟩ := frugal_mkNode t₂ hvar (n₂.holds hr₁) hr₂ below below' _ _ last
  refine ⟨t₃, ?_, fun x => ?_⟩
  · have xl := (n₂.trans n').2.widens.explored n₁.1.toFounded x₁ (n₁.holds hlow)
      ((hset₁ n₁).allocated n₁.1.toFounded)
    have xh := n'.2.widens.explored n₂.1.toFounded x₂ (n.holds hhigh)
      ((hset₁ n).allocated n₂.1.toFounded)
    rw [← n₃.2.nodes.lowOf_eq hf] at xl
    rw [← n₃.2.nodes.highOf_eq hf] at xh
    refine .keep (by rwa [n₃.2.rank_eq hf, n₃.2.order]) xl xh ⟨r, hr, fun ρ => ?_⟩
    exact (hval ρ).trans (n₃.anywhere_eq h hf _ ρ).symm
  · obtain ⟨xl, xh, known⟩ := x.of_above ht hlt
    have hold := n₃.holds_of_has h hr hval known
    have xh := n₁.2.widens.explored hfd xh hhigh (hset.allocated hfd)
    rw [idle₃ (n.holds hold), idle₂ xh, idle₁ xl]

end Quantifying

/-- An explored edge has its result. -/
theorem Explored.has {m : Manager} (h : m.Founded) {f : Edge} {vs : List Nat}
    (x : m.Explored f vs) : m.Holds f → m.Has (m.anywhere vs f) := by
  induction x with
  | @leaf f vs ht =>
      exact fun hf => ⟨f, hf, fun ρ => anywhere_eq_eval_iff.mpr (somewhere_leaf ht).symm⟩
  | @done f => exact fun hf => ⟨f, hf, fun ρ => anywhere_eq_eval_iff.mpr somewhere_nil.symm⟩
  | skip hlt _ ih =>
      intro hf
      obtain ⟨e, he, hval⟩ := ih hf
      exact ⟨e, he, fun ρ => (hval ρ).trans
        (anywhere_eq_iff.mpr (somewhere_skip h hf hlt).symm)⟩
  | @settle f vs _ always ih =>
      intro hf
      cases ht : f.isTerminal with
      | true => exact ⟨f, hf, fun ρ => anywhere_eq_eval_iff.mpr (somewhere_leaf ht).symm⟩
      | false =>
          refine ⟨.one, h.holds_one, fun ρ => (anywhere_eq_true_iff.mpr ?_).symm⟩
          exact (somewhere_split h hf ht).mpr (Or.inl (always ρ))
  | join _ _ known => exact fun _ => known
  | keep _ _ _ known => exact fun _ => known

section Repeating

variable {m : Manager} (h : m.WellFormed) {f vars : Edge} {vs : List Nat} (hf : m.Holds f)
  (hset : m.IsVarSet vars vs) {work : Op Edge}

include h hf hset

/-- What leaves an explored edge may be worked out again and again. -/
theorem repeatable_of_traces (made : ∀ m', m.Next m' → Makes work m' fun ρ => m.anywhere vs f ρ)
    (traced : ∀ m', m.Next m' → m'.Thorough → Traces work m' f vs) :
    m.Repeatable (.project f vars) (fun ρ => m.anywhere vs f ρ) work := by
  refine ⟨asks_project h hf hset, made, fun m' r m'' n t' run => ?_,
    fun m' known r m'' n t' _ c run => ?_⟩
  · obtain ⟨n', _, _⟩ := (made m' n).of_ok run
    obtain ⟨t'', x, _⟩ := traced m' n t' _ _ run
    exact ⟨t'', vs, (n.trans n').2.nodes.isVarSet hset, x⟩
  · obtain ⟨ws, hws, x⟩ := c
    rw [hws.unique (n.2.nodes.isVarSet hset)] at x
    exact (traced m' n t' _ _ run).2.2 x

/-- A look-up in front of it changes nothing in that. -/
theorem Repeatable.traces (w : m.Repeatable (.project f vars) (fun ρ => m.anywhere vs f ρ) work)
    (t : m.Thorough) : Traces (Manager.memo (.project f vars) false work) m f vs := by
  intro r m' run
  obtain ⟨n, _, _⟩ := (makes_memo h w.asks w.made false).of_ok run
  obtain ⟨t', ⟨ws, hws, x⟩, idle⟩ := w.memo t run
  rw [hws.unique (n.2.nodes.isVarSet hset)] at x
  refine ⟨t', x, fun x => ?_⟩
  obtain ⟨known, hk, hval⟩ := x.has t.toFounded hf
  exact idle known ((w.asks m known (.refl h)).mpr ⟨hk, hval⟩) ⟨vs, hset, x⟩

variable {depth : Nat} (ih : ∀ {m : Manager} {f vars : Edge} {vs : List Nat}, m.Thorough →
    m.Holds f → m.IsVarSet vars vs → f.index + vars.index < depth →
    Traces (projectWithin depth f vars) m f vs)
  (ht : f.isTerminal = false) (hdepth : f.index + vars.index ≤ depth)

include ih ht hdepth

omit hset in
theorem repeatable_keepStep {v : Nat} (hset : m.IsVarSet vars (v :: vs))
    (hlt : m.rank f < m.order.levelAt v) :
    m.Repeatable (.project f vars) (fun ρ => m.anywhere (v :: vs) f ρ)
      (keepStep (projectWithin depth) mkNode f vars (m.lowOf f) (m.highOf f)) := by
  refine repeatable_of_traces h hf hset (fun m' n => ?_) fun m' n t' => ?_
  · refine n.makes_keepStep (makes_projectWithin depth) h hf ht hset ?_ hdepth
    rwa [rank_of_not_terminal hset.2.1, hset.2.2.2.1]
  · rw [← n.2.nodes.lowOf_eq hf, ← n.2.nodes.highOf_eq hf]
    refine traced_keepStep ih t' (n.holds hf) ht (n.2.nodes.isVarSet hset) ?_ hdepth
    rwa [n.2.rank_eq hf, n.2.order]

omit hset in
theorem repeatable_joinStep (hset : m.IsVarSet vars (m.varOf f :: vs)) :
    m.Repeatable (.project f vars) (fun ρ => m.anywhere (m.varOf f :: vs) f ρ)
      (joinStep (projectWithin depth) disj (m.highOf vars) (m.lowOf f) (m.highOf f)) := by
  have hrest := hset.2.2.2.2.2
  have hirest := h.index_highOf_lt hset.1 hset.2.1
  refine repeatable_of_traces h hf hset (fun m' n => ?_) fun m' n t' => ?_
  · exact n.makes_joinStep (makes_projectWithin depth) h hf ht hrest (by omega)
  · rw [← n.2.nodes.lowOf_eq hf, ← n.2.nodes.highOf_eq hf, ← n.2.nodes.varOf_eq hf]
    exact traced_joinStep ih t' (n.holds hf) ht (n.2.nodes.isVarSet hrest) (by omega)

end Repeating

/-- **Quantification leaves an explored edge**, and stores nothing for one. -/
theorem traced_projectWithin : ∀ (depth : Nat) {m : Manager} {f vars : Edge} {vs : List Nat},
    m.Thorough → m.Holds f → m.IsVarSet vars vs → f.index + vars.index < depth →
    Traces (projectWithin depth f vars) m f vs := by
  intro depth
  induction depth with
  | zero => exact fun _ _ _ hlt => absurd hlt (Nat.not_lt_zero _)
  | succ depth ih =>
      intro m f vars vs t hf hset hlt r m' run
      have h := t.toWellFormed
      have hfd := t.toFounded
      by_cases hdone : f.isTerminal = true ∨ vars = .one
      · rw [projectWithin_done hdone] at run
        obtain ⟨_, rfl⟩ := EStateM.Result.ok.inj run
        refine ⟨t, ?_, fun _ => rfl⟩
        rcases hdone with ht | rfl
        · exact .leaf ht
        · cases vs with
          | nil => exact .done
          | cons v vs => cases hset.2.1
      obtain ⟨ht, hone⟩ := not_or.mp hdone
      rw [Bool.not_eq_true] at ht
      obtain ⟨rest, rfl, htv, hrest⟩ := hset.exists_cons hone
      have hvars := hset.holds hfd
      have hirest := hfd.index_highOf_lt hvars htv
      have hrun := projectWithin_succ hfd hf ht hset depth
      rw [hrun] at run
      rcases Nat.lt_trichotomy (m.rank f) (m.order.levelAt (m.varOf vars)) with hlt' | heq | hskip
      · rw [if_neg (by omega), if_neg (by omega)] at run
        have rep := repeatable_keepStep h hf ih ht (by omega) hset hlt'
        exact rep.traces h hf hset t _ _ run
      · rw [if_neg (by omega), if_pos heq] at run
        have hv := h.varOf_eq hf ht (h.allocated hvars htv) heq.symm
        rw [← hv] at hset ⊢
        have rep := repeatable_joinStep h hf ih ht (by omega) hset
        exact rep.traces h hf hset t _ _ run
      · rw [if_pos hskip] at run
        obtain ⟨n, _, _⟩ :=
          (makes_projectWithin depth t.toWellFormed hf hrest (by omega)).of_ok run
        obtain ⟨t', x, idle⟩ := ih t hf hrest (by omega) _ _ run
        refine ⟨t', .skip ?_ x, fun x => idle (x.of_below ht hskip)⟩
        rwa [n.2.order, n.2.rank_eq hf]

end Factbase.Diagram.Manager
