import Factbase.Proofs.Diagram.Rebuilding
import Factbase.Proofs.Diagram.Thrift

/-!
# Runs on two managers

Two managers are alike where they have the same nodes in the same order and the same variables;
their tables and caches may be of different sizes, and one cache may have lost what the other one
still keeps. A program agrees on them where it comes to the same result on both, or stops with the
same fault on both, and leaves alike managers.

* `Alike`, `Agrees`: these two notions, `Agrees.bind` and `Agrees.foldlM` their rules;
* `agrees_memo`: **a look-up that hits on one side and misses on the other makes no difference.**
  The side that misses works out an edge that it has, and `Repeatable` says that this stores
  nothing;
* `agrees_iteWithin`, `agrees_projectWithin`: if-then-else and quantification agree, by induction
  on the depth;
* `agrees_mkVar`, `agrees_cube`, `agrees_readBody` and others: **all operations agree**, also where
  they stop.
-/

namespace Factbase.Diagram.Manager

/-! ## 1. Alike managers -/

/-- **The managers have the same nodes in the same order, and the same variables.** -/
structure Alike (m n : Manager) : Prop where
  left : m.Thorough
  right : n.Thorough
  nodes : m.nodes.values = n.nodes.values
  order : m.order = n.order

section Alike

variable {m n : Manager} (a : Alike m n)

include a

theorem Alike.symm : Alike n m := ⟨a.right, a.left, a.nodes.symm, a.order.symm⟩

/-- Either of two alike managers is a later one of the other. -/
theorem Alike.next : m.Next n :=
  ⟨a.right.toWellFormed, ⟨⟨[], by rw [List.append_nil, a.nodes]⟩, a.order.symm⟩⟩

theorem Alike.numNodes_eq : m.numNodes = n.numNodes := by
  rw [numNodes, numNodes, ← Table.length_values, a.nodes, Table.length_values]

theorem Alike.numVars_eq : m.numVars = n.numVars := by rw [numVars, numVars, a.order]

theorem Alike.holds {e : Edge} : m.Holds e ↔ n.Holds e := by rw [Holds, Holds, a.numNodes_eq]

/-- Look-ups on either side change the caches only. -/
theorem Alike.counted (key : OpKey) : Alike (m.counted key) (n.counted key) :=
  ⟨(a.left.counted key).1, (a.right.counted key).1, a.nodes, a.order⟩

/-- An edge that both managers have has the same value in them. -/
theorem Alike.eq_of_eval_eq {r r' : Edge} (hr : m.Holds r) (hr' : n.Holds r')
    {value : Assignment → Bool} (hval : ∀ ρ, m.eval ρ r = value ρ)
    (hval' : ∀ ρ, n.eval ρ r' = value ρ) : r = r' := by
  refine a.right.eq_of_eval_eq (a.holds.mp hr) hr' fun ρ => ?_
  rw [a.next.eval_eq a.left.toWellFormed hr, hval, hval']

end Alike

/-- A manager that has grown by nothing is alike to what the other one was. -/
theorem Alike.of_numNodes {m n n' : Manager} (a : Alike m n) (next : n.Next n') (t : n'.Thorough)
    (same : n'.numNodes = n.numNodes) : Alike m n' := by
  refine ⟨a.left, t, a.nodes.trans ?_, a.order.trans next.2.order.symm⟩
  refine next.2.nodes.eq_of_length ?_
  rw [Table.length_values, Table.length_values]
  exact same.symm

/-! ## 2. Programs that agree -/

/-- **The program comes to the same result on both managers, or stops with the same fault on
both, and leaves alike managers.** -/
def Agrees {α : Type} (act : Op α) (m n : Manager) : Prop :=
  match act m, act n with
  | .ok a m', .ok b n' => a = b ∧ Alike m' n'
  | .error fault m', .error fault' n' => fault = fault' ∧ Alike m' n'
  | _, _ => False

section Agrees

variable {α β : Type} {act act' : Op α} {m n : Manager}

theorem agrees_of_ok {a : α} {m' n' : Manager} (run : act m = .ok a m') (run' : act n = .ok a n')
    (alike : Alike m' n') : Agrees act m n := by
  rw [Agrees, run, run']
  exact ⟨rfl, alike⟩

theorem agrees_of_error {fault : Fault} {m' n' : Manager} (run : act m = .error fault m')
    (run' : act n = .error fault n') (alike : Alike m' n') : Agrees act m n := by
  rw [Agrees, run, run']
  exact ⟨rfl, alike⟩

theorem Agrees.of_ok (h : Agrees act m n) {a : α} {m' : Manager} (run : act m = .ok a m') :
    ∃ n', act n = .ok a n' ∧ Alike m' n' := by
  rw [Agrees, run] at h
  cases run' : act n with
  | ok b n' =>
      rw [run'] at h
      obtain ⟨rfl, alike⟩ := h
      exact ⟨n', rfl, alike⟩
  | error fault n' =>
      rw [run'] at h
      exact h.elim

theorem Agrees.of_error (h : Agrees act m n) {fault : Fault} {m' : Manager}
    (run : act m = .error fault m') : ∃ n', act n = .error fault n' ∧ Alike m' n' := by
  rw [Agrees, run] at h
  cases run' : act n with
  | ok b n' =>
      rw [run'] at h
      exact h.elim
  | error fault' n' =>
      rw [run'] at h
      obtain ⟨rfl, alike⟩ := h
      exact ⟨n', rfl, alike⟩

theorem Agrees.symm (h : Agrees act m n) : Agrees act n m := by
  cases run : act m with
  | ok x m' =>
      obtain ⟨n', run', alike⟩ := h.of_ok run
      exact agrees_of_ok run' run alike.symm
  | error fault m' =>
      obtain ⟨n', run', alike⟩ := h.of_error run
      exact agrees_of_error run' run alike.symm

/-- The run on either manager may be written in another way. -/
theorem Agrees.congr (h : Agrees act' m n) (same : act m = act' m) (same' : act n = act' n) :
    Agrees act m n := by
  rw [Agrees, same, same']
  exact h

theorem agrees_pure (a : Alike m n) (x : α) : Agrees (pure x : Op α) m n := ⟨rfl, a⟩

theorem agrees_throw (a : Alike m n) (fault : Fault) : Agrees (throw fault : Op α) m n := ⟨rfl, a⟩

/-- A question is answered alike where it asks for nodes and variables only. -/
theorem agrees_ask (a : Alike m n) {question : Manager → Except Fault α}
    (same : question m = question n) : Agrees (ask question) m n := by
  rw [Agrees, ask, ask, ← same]
  cases question m with
  | ok x => exact ⟨rfl, a⟩
  | error fault => exact ⟨rfl, a⟩

/-- **One program behind another.** The first one may be said to have come to its result. -/
theorem Agrees.bind {next : α → Op β} (h : Agrees act m n)
    (hn : ∀ x m' n', act m = .ok x m' → Alike m' n' → Agrees (next x) m' n') :
    Agrees (act >>= next) m n := by
  cases run : act m with
  | ok x m' =>
      obtain ⟨n', run', alike⟩ := h.of_ok run
      have rest := hn x m' n' run alike
      rw [Agrees, bind_of_ok run, bind_of_ok run']
      exact rest
  | error fault m' =>
      obtain ⟨n', run', alike⟩ := h.of_error run
      exact agrees_of_error (bind_eq_error run) (bind_eq_error run') alike

/-- **The loop rule.** The invariant speaks of the elements still to come, and of one side. -/
theorem Agrees.foldlM {f : β → α → Op β} {i : List α → β → Manager → Prop}
    (keep : ∀ x xs b m n, Alike m n → i (x :: xs) b m → Agrees (f b x) m n ∧
      ∀ b' m', f b x m = .ok b' m' → i xs b' m') :
    ∀ (xs : List α) (b : β) {m n : Manager}, Alike m n → i xs b m → Agrees (xs.foldlM f b) m n
  | [], b, _, _, a, _ => agrees_pure a b
  | x :: xs, b, m, n, a, h => by
      rw [List.foldlM_cons]
      obtain ⟨step, after⟩ := keep x xs b m n a h
      exact step.bind fun b' m' n' run a' => foldlM keep xs b' a' (after b' m' run)

end Agrees

/-! ## 3. Results that are looked up or worked out -/

/-- What may be repeated may be repeated in later managers. -/
theorem Repeatable.next {m m' : Manager} {key : OpKey} {value : Assignment → Bool} {work : Op Edge}
    (w : m.Repeatable key value work) (n : m.Next m') : m'.Repeatable key value work where
  asks _ r n' := w.asks _ r (n.trans n')
  made _ n' := w.made _ (n.trans n')
  traced _ r _ n' := w.traced _ r _ (n.trans n')
  idle _ known r _ n' := w.idle _ known r _ (n.trans n')

section Memo

variable {m n : Manager} (a : Alike m n) {key : OpKey} {value : Assignment → Bool} {work : Op Edge}
  (w : m.Repeatable key value work)

include a w

/-- What one side looks up the other side works out, without storing anything. -/
theorem agrees_hit_miss {known : Edge} (hit : m.cache.find? key = some known)
    (miss : n.cache.find? key = none) (flip : Bool) : Agrees (memo key flip work) m n := by
  have hk := Cache.keeps_of_find? hit
  have ha := a.left.cached key known hk
  have hc := a.left.covered key known hk
  have ac := a.counted key
  have next : m.Next (n.counted key) := a.next.trans (a.right.counted key).2
  obtain ⟨hknown, hval⟩ := (w.asks m known (.refl a.left.toWellFormed)).mp ha
  obtain ⟨r, n₁, run, next₁, hr, hval₁⟩ := w.made _ next
  obtain ⟨t₁, c₁⟩ := w.traced _ r n₁ next ac.right run
  have same := w.idle _ known r n₁ next ac.right (next.2.nodes.answers a.left.toFounded ha)
    (next.2.widens.covers a.left.toFounded ha hc) run
  have alike := ac.of_numNodes next₁ t₁ same
  have counted := (a.left.counted key).2
  obtain rfl : known = r := alike.eq_of_eval_eq (counted.holds hknown) hr
    (fun ρ => (counted.eval_eq a.left.toWellFormed hknown ρ).trans (hval ρ)) hval₁
  have ha₁ := (w.asks n₁ known (next.trans next₁)).mpr ⟨hr, hval₁⟩
  refine agrees_of_ok (memo_hit hit) ((memo_miss miss).trans (bind_of_ok run))
    ⟨ac.left, t₁.remember ha₁ c₁, alike.nodes, alike.order⟩

/-- **A look-up that hits on one side and misses on the other makes no difference.** -/
theorem agrees_memo (agree : ∀ m' n', m.Next m' → Alike m' n' → Agrees work m' n')
    (flip : Bool) : Agrees (memo key flip work) m n := by
  cases hit : m.cache.find? key with
  | some known =>
      cases hit' : n.cache.find? key with
      | some known' =>
          have ha := a.left.cached key known (Cache.keeps_of_find? hit)
          have ha' := a.right.cached key known' (Cache.keeps_of_find? hit')
          obtain ⟨hr, hval⟩ := (w.asks m known (.refl a.left.toWellFormed)).mp ha
          obtain ⟨hr', hval'⟩ := (w.asks n known' a.next).mp ha'
          obtain rfl := a.eq_of_eval_eq hr hr' hval hval'
          exact agrees_of_ok (memo_hit hit) (memo_hit hit') (a.counted key)
      | none => exact agrees_hit_miss a w hit hit' flip
  | none =>
      cases hit' : n.cache.find? key with
      | some known' => exact (agrees_hit_miss a.symm (w.next a.next) hit' hit flip).symm
      | none =>
          have next := (a.left.counted key).2
          rw [Agrees, memo_miss hit, memo_miss hit']
          refine (agree _ _ next (a.counted key)).bind fun r m₁ n₁ run a₁ => ?_
          obtain ⟨next₁, hr, hval⟩ := (w.made _ next).of_ok run
          obtain ⟨t₁, c₁⟩ := w.traced _ r m₁ next (a.left.counted key).1 run
          have ha := (w.asks m₁ r (next.trans next₁)).mpr ⟨hr, hval⟩
          have ha' := a₁.next.2.nodes.answers t₁.toFounded ha
          have c' := a₁.next.2.widens.covers t₁.toFounded ha c₁
          exact agrees_of_ok (a := r.complementIf flip) rfl rfl
            ⟨t₁.remember ha c₁, a₁.right.remember ha' c', a₁.nodes, a₁.order⟩

end Memo

/-! ## 4. Decisions -/

theorem Next.admits {m m' : Manager} (n : m.Next m') {v : Node} (ha : m.Admits v) :
    m'.Admits v where
  var := n.2.order.symm ▸ ha.var
  lowHeld := n.holds ha.lowHeld
  highHeld := n.holds ha.highHeld
  lowBelow := by rw [n.2.order, n.2.rank_eq ha.lowHeld]; exact ha.lowBelow
  highBelow := by rw [n.2.order, n.2.rank_eq ha.highHeld]; exact ha.highBelow
  regular := ha.regular
  reduced := ha.reduced

section Decisions

variable {m n : Manager} (a : Alike m n)

include a

theorem agrees_intern {node : Node} (ha : m.Admits node) : Agrees (intern node) m n := by
  have h := a.left.toWellFormed
  have stored_eq : ∀ {i}, 2 ≤ i → i ≤ n.numNodes → n.stored i = m.stored i := fun hi hi' =>
    a.next.2.nodes.stored_eq (by omega) (a.numNodes_eq ▸ hi')
  rcases intern_cases h ha with ⟨i, hi, hi', hs, run⟩ | ⟨new, nodes, hvalues, hm, run⟩
  · rcases intern_cases a.right.toWellFormed (a.next.admits ha) with
      ⟨j, hj, hj', hs', run'⟩ | ⟨new', _⟩
    · rw [stored_eq hj hj'] at hs'
      obtain rfl := h.unique hi hi' hj (a.numNodes_eq ▸ hj') (hs.trans hs'.symm)
      exact agrees_of_ok run run' a
    · have hi' := a.numNodes_eq ▸ hi'
      exact absurd ((stored_eq hi hi').trans hs) (new' i hi hi')
  · rcases intern_cases a.right.toWellFormed (a.next.admits ha) with
      ⟨j, hj, hj', hs', run'⟩ | ⟨_, nodes', hvalues', hm', run'⟩
    · exact absurd ((stored_eq hj hj').symm.trans hs') (new j hj (a.numNodes_eq ▸ hj'))
    · rw [← a.numNodes_eq] at run'
      refine agrees_of_ok run run' ⟨?_, ?_, ?_, a.order⟩
      · exact a.left.widen (grows_append hvalues).widens hm fun _ _ hk => hk
      · exact a.right.widen (grows_append hvalues').widens hm' fun _ _ hk => hk
      · show nodes.values = nodes'.values
        rw [hvalues, hvalues', a.nodes]

variable {v : Nat} {low high : Edge} (hv : m.order.Allocated v) (hl : m.Holds low)
  (hh : m.Holds high) (below : m.order.levelAt v < m.rank low)
  (below' : m.order.levelAt v < m.rank high)

include hv hl hh below below'

theorem agrees_shared (regular : high.negated = false) : Agrees (shared v low high) m n := by
  unfold shared
  by_cases same : low = high
  · rw [if_pos same]
    exact agrees_pure a low
  · rw [if_neg same]
    refine (agrees_intern a ⟨hv, hl, hh, below, below', regular, same⟩).bind fun i m' n' _ a' => ?_
    exact agrees_pure a' _

theorem agrees_mkNode : Agrees (mkNode v low high) m n := by
  unfold mkNode
  rw [if_neg hv.1]
  show Agrees (if high.negated = true then _ else _) m n
  cases hn : high.negated with
  | false => exact agrees_shared a hv hl hh below below' hn
  | true =>
      rw [if_pos rfl]
      have hl' := complement_eq (a.holds.mp hl)
      have hh' := complement_eq (a.holds.mp hh)
      refine (agrees_ask a ((complement_eq hl).trans hl'.symm)).bind fun _ m₁ n₁ asked a₁ => ?_
      obtain ⟨hq, rfl⟩ := of_ask_eq asked
      obtain rfl := Except.ok.inj ((complement_eq hl).symm.trans hq)
      refine (agrees_ask a₁ ?_).bind fun _ m₂ n₂ asked' a₂ => ?_
      · rw [complement_eq hh, complement_eq (a₁.holds.mp hh)]
      obtain ⟨hq', rfl⟩ := of_ask_eq asked'
      obtain rfl := Except.ok.inj ((complement_eq hh).symm.trans hq')
      refine (agrees_shared a₂ hv (holds_neg.mpr hl) (holds_neg.mpr hh) (by rwa [rank_neg])
        (by rwa [rank_neg]) (by rw [Edge.negated_neg hh.1, hn]; rfl)).bind fun r _ _ _ a' => ?_
      exact agrees_pure a' _

end Decisions

/-! ## 5. If-then-else -/

theorem Next.normal_eq {m m' : Manager} (n : m.Next m') (h : m.Founded) {t : Triple}
    (ht : t.Held m) : m'.normal t = m.normal t := by
  obtain ⟨hab, _⟩ := Triple.absorb_held h ht
  rw [normal, normal, n.2.rank_eq hab.cond, n.2.rank_eq hab.yes, n.2.rank_eq hab.no]

theorem agrees_splitWithin {depth : Nat} (ih : ∀ {m n : Manager} {t : Triple}, Alike m n →
      t.Held m → t.weight < depth → Agrees (iteWithin depth t.cond t.yes t.no) m n)
    {m m' n' : Manager} (h : m.WellFormed) (n : m.Next m') (a : Alike m' n') {t : Triple}
    (ht : t.Held m) (hw : t.weight ≤ depth) {v : Nat} (hv : m.order.Allocated v)
    (top : m.order.levelAt v = t.top m) :
    Agrees (splitWithin depth v (m.lowTriple t v) (m.highTriple t v)) m' n' := by
  have hlow := held_lowTriple h ht hv
  have hhigh := held_highTriple h ht hv
  obtain ⟨hw₀, hw₁⟩ := weight_lowTriple_lt h ht hv top
  refine (ih a (n.held hlow) (by omega)).bind fun low m₁ n₁ run₁ a₁ => ?_
  obtain ⟨next₁, hr₁, hval₁⟩ := (makes_iteWithin depth n.1 (n.held hlow) (by omega)).of_ok run₁
  have hn₁ := n.trans next₁
  refine (ih a₁ (hn₁.held hhigh) (by omega)).bind fun high m₂ n₂ run₂ a₂ => ?_
  obtain ⟨next₂, hr₂, hval₂⟩ :=
    (makes_iteWithin depth hn₁.1 (hn₁.held hhigh) (by omega)).of_ok run₂
  obtain ⟨hv₂, below, below'⟩ := (hn₁.trans next₂).fit_split h ht hv top (next₂.holds hr₁) hr₂
    (fun ρ => (next₂.eval_eq next₁.1 hr₁ ρ).trans ((hval₁ ρ).trans (n.value_eq h hlow ρ)))
    (fun ρ => (hval₂ ρ).trans (hn₁.value_eq h hhigh ρ))
  exact agrees_mkNode a₂ hv₂ (next₂.holds hr₁) hr₂ below below'

/-- **If-then-else agrees.** -/
theorem agrees_iteWithin : ∀ (depth : Nat) {m n : Manager} {t : Triple}, Alike m n → t.Held m →
    t.weight < depth → Agrees (iteWithin depth t.cond t.yes t.no) m n := by
  intro depth
  induction depth with
  | zero => exact fun _ _ hlt => absurd hlt (Nat.not_lt_zero _)
  | succ depth ih =>
      intro m n t a ht hlt
      have h := a.left.toWellFormed
      have ht' := a.next.held ht
      cases hs : t.quick? with
      | some r =>
          exact agrees_of_ok (iteWithin_settled ht hs depth) (iteWithin_settled ht' hs depth) a
      | none =>
          obtain ⟨v, hv, top, run⟩ := iteWithin_normal h ht hs depth
          obtain ⟨v', hv', top', run'⟩ := iteWithin_normal a.right.toWellFormed ht' hs depth
          obtain ⟨hnormal, hw, _⟩ := normal_held h ht
          rw [a.next.normal_eq h.toFounded ht, a.next.top_eq hnormal, ← a.order] at top'
          rw [← a.order] at hv'
          obtain rfl := h.order.levelAt_inj hv hv' (top.trans top'.symm)
          rw [a.next.normal_eq h.toFounded ht, a.next.2.lowTriple_eq hnormal,
            a.next.2.highTriple_eq hnormal] at run'
          have rep := repeatable_splitWithin (frugal_iteWithin depth) h hnormal (by omega) hv top
          refine (agrees_memo a rep (fun m' n' next a' => ?_) _).congr run run'
          exact agrees_splitWithin ih h next a' hnormal (by omega) hv top

section Operations

variable {m n : Manager} (a : Alike m n) {f g k : Edge} (hf : m.Holds f) (hg : m.Holds g)

include a hf hg

theorem agrees_ite (hk : m.Holds k) : Agrees (ite f g k) m n := by
  have inner := agrees_iteWithin _ (t := ⟨f, g, k⟩) a ⟨hf, hg, hk⟩ (weight_lt_fuel hf hg hk)
  refine inner.congr rfl ?_
  rw [a.numNodes_eq]
  rfl

theorem agrees_exclusive : Agrees (exclusive f g) m n := by
  unfold exclusive
  refine (agrees_ask a ?_).bind fun _ m₁ n₁ asked a₁ => ?_
  · rw [complement_eq hg, complement_eq (a.holds.mp hg)]
  obtain ⟨hq, rfl⟩ := of_ask_eq asked
  obtain rfl := Except.ok.inj ((complement_eq hg).symm.trans hq)
  exact agrees_ite a₁ hf (holds_neg.mpr hg) hg

end Operations

/-- The conjunction of a list agrees. -/
theorem agrees_conjAll {m n : Manager} (a : Alike m n) {fs : List Edge}
    (hfs : ∀ f ∈ fs, m.Holds f) : Agrees (conjAll fs) m n := by
  refine Agrees.foldlM (i := fun rest r m' => m'.Holds r ∧ ∀ f ∈ rest, m'.Holds f)
    (fun f rest r m n a ⟨hr, hrest⟩ => ?_) fs .one a ⟨a.left.holds_one, hfs⟩
  have hf := hrest f List.mem_cons_self
  refine ⟨agrees_ite a hr hf a.left.holds_zero, fun r' m' run => ?_⟩
  obtain ⟨next, hr', _⟩ := (makes_conj a.left.toWellFormed hr hf).of_ok run
  exact ⟨hr', fun f hf => next.holds (hrest f (List.mem_cons_of_mem _ hf))⟩

/-! ## 6. Quantification -/

section Quantifying

variable {depth : Nat}
  (ih : ∀ {m n : Manager} {f vars : Edge} {vs : List Nat}, Alike m n → m.Holds f →
    m.IsVarSet vars vs → f.index + vars.index < depth → Agrees (projectWithin depth f vars) m n)
  {m m' n' : Manager} (h : m.WellFormed) (n : m.Next m') (a : Alike m' n') {f vars : Edge}
  (hf : m.Holds f) (ht : f.isTerminal = false) {vs : List Nat} (hset : m.IsVarSet vars vs)

include ih h n a hf ht hset

theorem agrees_joinStep (hdepth : f.index + vars.index ≤ depth) :
    Agrees (joinStep (projectWithin depth) disj vars (m.lowOf f) (m.highOf f)) m' n' := by
  have hlow := h.holds_lowOf hf ht
  have hhigh := h.holds_highOf hf ht
  have hilow := h.index_lowOf_lt hf ht
  have hihigh := h.index_highOf_lt hf ht
  have hset' := fun {m'} (n : m.Next m') => n.2.nodes.isVarSet hset
  unfold joinStep
  refine (ih a (n.holds hlow) (hset' n) (by omega)).bind fun low m₁ n₁ run₁ a₁ => ?_
  obtain ⟨next₁, hr₁, _⟩ :=
    (makes_projectWithin depth n.1 (n.holds hlow) (hset' n) (by omega)).of_ok run₁
  have hn₁ := n.trans next₁
  by_cases hdone : low = .one
  · rw [if_pos hdone]
    exact agrees_pure a₁ low
  · rw [if_neg hdone]
    refine (ih a₁ (hn₁.holds hhigh) (hset' hn₁) (by omega)).bind fun high m₂ n₂ run₂ a₂ => ?_
    obtain ⟨next₂, hr₂, _⟩ :=
      (makes_projectWithin depth hn₁.1 (hn₁.holds hhigh) (hset' hn₁) (by omega)).of_ok run₂
    exact agrees_ite a₂ (next₂.holds hr₁) a₂.left.holds_one hr₂

theorem agrees_keepStep (hdepth : f.index + vars.index ≤ depth) :
    Agrees (keepStep (projectWithin depth) mkNode f vars (m.lowOf f) (m.highOf f)) m' n' := by
  have hlow := h.holds_lowOf hf ht
  have hhigh := h.holds_highOf hf ht
  have hilow := h.index_lowOf_lt hf ht
  have hihigh := h.index_highOf_lt hf ht
  have hset' := fun {m'} (n : m.Next m') => n.2.nodes.isVarSet hset
  unfold keepStep
  refine (ih a (n.holds hlow) (hset' n) (by omega)).bind fun low m₁ n₁ run₁ a₁ => ?_
  obtain ⟨next₁, hr₁, hval₁⟩ :=
    (makes_projectWithin depth n.1 (n.holds hlow) (hset' n) (by omega)).of_ok run₁
  have hn₁ := n.trans next₁
  refine (ih a₁ (hn₁.holds hhigh) (hset' hn₁) (by omega)).bind fun high m₂ n₂ run₂ a₂ => ?_
  obtain ⟨next₂, hr₂, hval₂⟩ :=
    (makes_projectWithin depth hn₁.1 (hn₁.holds hhigh) (hset' hn₁) (by omega)).of_ok run₂
  have hn₂ := hn₁.trans next₂
  have hf₂ := hn₂.holds hf
  refine (agrees_ask a₂ ?_).bind fun node m₃ n₃ asked a₃ => ?_
  · have hf₂' := a₂.holds.mp hf₂
    rw [node_eq hf₂.1 hf₂.2, node_eq hf₂'.1 hf₂'.2, a₂.next.2.nodes.stored_eq hf₂.1 hf₂.2]
  obtain ⟨hnode, rfl⟩ := of_ask_eq asked
  obtain ⟨hvar, below, below'⟩ := hn₂.fit_keep h hf ht hnode (next₂.holds hr₁) hr₂
    (fun ρ => (next₂.eval_eq next₁.1 hr₁ ρ).trans ((hval₁ ρ).trans (n.anywhere_eq h hlow vs ρ)))
    (fun ρ => (hval₂ ρ).trans (hn₁.anywhere_eq h hhigh vs ρ))
  exact agrees_mkNode a₃ hvar (next₂.holds hr₁) hr₂ below below'

end Quantifying

/-- **Quantification agrees.** -/
theorem agrees_projectWithin : ∀ (depth : Nat) {m n : Manager} {f vars : Edge} {vs : List Nat},
    Alike m n → m.Holds f → m.IsVarSet vars vs → f.index + vars.index < depth →
    Agrees (projectWithin depth f vars) m n := by
  intro depth
  induction depth with
  | zero => exact fun _ _ _ hlt => absurd hlt (Nat.not_lt_zero _)
  | succ depth ih =>
      intro m n f vars vs a hf hset hlt
      have h := a.left.toWellFormed
      have hfd := h.toFounded
      have hf' := a.next.holds hf
      have hset' := a.next.2.nodes.isVarSet hset
      by_cases hdone : f.isTerminal = true ∨ vars = .one
      · exact agrees_of_ok (projectWithin_done hdone depth) (projectWithin_done hdone depth) a
      obtain ⟨ht, hone⟩ := not_or.mp hdone
      rw [Bool.not_eq_true] at ht
      obtain ⟨rest, rfl, htv, hrest⟩ := hset.exists_cons hone
      have hvars := hset.holds hfd
      have hirest := hfd.index_highOf_lt hvars htv
      have run := projectWithin_succ hfd hf ht hset depth
      have run' := projectWithin_succ a.right.toFounded hf' ht hset' depth
      rw [a.next.2.rank_eq hf, a.next.2.nodes.lowOf_eq hf, a.next.2.nodes.highOf_eq hf,
        a.next.2.nodes.highOf_eq hvars, ← a.order] at run'
      rcases Nat.lt_trichotomy (m.rank f) (m.order.levelAt (m.varOf vars)) with hlt' | heq | hskip
      · rw [if_neg (by omega), if_neg (by omega)] at run run'
        have rep := repeatable_keepStep h hf (traced_projectWithin depth) ht (by omega) hset hlt'
        refine (agrees_memo a rep (fun m' n' next a' => ?_) false).congr run run'
        exact agrees_keepStep ih h next a' hf ht hset (by omega)
      · rw [if_neg (by omega), if_pos heq] at run run'
        have hv := h.varOf_eq hf ht (h.allocated hvars htv) heq.symm
        rw [← hv] at hset
        have rep := repeatable_joinStep h hf (traced_projectWithin depth) ht (by omega) hset
        refine (agrees_memo a rep (fun m' n' next a' => ?_) false).congr run run'
        exact agrees_joinStep ih h next a' hf ht hrest (by omega)
      · rw [if_pos hskip] at run run'
        exact (ih a hf hrest (by omega)).congr run run'

theorem agrees_project {m n : Manager} (a : Alike m n) {f vars : Edge} {vs : List Nat}
    (hf : m.Holds f) (hset : m.IsVarSet vars vs) : Agrees (project f vars) m n := by
  have inner := agrees_projectWithin _ a hf hset
    (index_lt_fuel hf (hset.holds a.left.toFounded))
  refine inner.congr rfl ?_
  rw [a.numNodes_eq]
  rfl

/-! ## 7. Variables -/

theorem mkVar_eq {v : Nat} (h0 : v ≠ 0) (m : Manager) : mkVar v m =
    (if m.numVars < v then throw (.unallocated v) else mkNode v .zero .one : Op Edge) m := by
  unfold mkVar
  rw [if_neg h0]
  rfl

/-- Only the edges of variables that are there can be had. -/
theorem allocated_of_mkVar_eq {m m' : Manager} {v : Nat} {r : Edge}
    (run : mkVar v m = .ok r m') : m.order.Allocated v := by
  have h0 : v ≠ 0 := fun h0 => by
    rw [h0] at run
    cases run
  refine ⟨h0, Nat.not_lt.mp fun hlt : m.numVars < v => ?_⟩
  rw [mkVar_eq h0, if_pos hlt] at run
  cases run

section Variables

variable {m n : Manager} (a : Alike m n)

include a

/-- The edge of a variable, which need not be there. -/
theorem agrees_mkVar (v : Nat) : Agrees (mkVar v) m n := by
  by_cases h0 : v = 0
  · exact (agrees_throw a .zeroVariable).congr (by rw [h0]; rfl) (by rw [h0]; rfl)
  by_cases hlt : m.numVars < v
  · refine (agrees_throw a (.unallocated v)).congr ?_ ?_
    · exact (mkVar_eq h0 m).trans (by rw [if_pos hlt])
    · exact (mkVar_eq h0 n).trans (by rw [if_pos (a.numVars_eq ▸ hlt)])
  · have hv : m.order.Allocated v := ⟨h0, Nat.not_lt.mp hlt⟩
    have h := a.left.toWellFormed
    have below := h.order.levelAt_lt hv
    refine (agrees_mkNode a hv h.holds_zero h.holds_one below below).congr ?_ ?_
    · exact (mkVar_eq h0 m).trans (by rw [if_neg hlt])
    · exact (mkVar_eq h0 n).trans (by rw [if_neg (a.numVars_eq ▸ hlt)])

theorem agrees_addLiteral {c : Edge} (hc : m.Holds c) {l : Int}
    (hl : m.order.Allocated l.natAbs) (below : m.order.levelAt l.natAbs < m.rank c) :
    Agrees (addLiteral c l) m n := by
  have h := a.left.toWellFormed
  have hlt := h.order.levelAt_lt hl
  unfold addLiteral
  by_cases hneg : l < 0
  · rw [if_pos hneg]
    exact agrees_mkNode a hl hc h.holds_zero below hlt
  · rw [if_neg hneg]
    exact agrees_mkNode a hl h.holds_zero hc hlt below

theorem agrees_cube {literals : List Int} (hc : m.Cubic literals) : Agrees (cube literals) m n := by
  have h := a.left.toWellFormed
  unfold cube
  rw [if_neg hc.contains_zero]
  obtain ⟨arranged, harranged, hperm, hdeep⟩ := deepestFirst_eq h.toFounded hc
  refine (agrees_ask a ?_).bind fun ls m₁ n₁ asked a₁ => ?_
  · rw [deepestFirst, deepestFirst, a.order]
  obtain ⟨hq, rfl⟩ := of_ask_eq asked
  obtain rfl := Except.ok.inj (harranged.symm.trans hq)
  refine Agrees.foldlM (i := fun rest c m' => m₁.Topping rest c m')
    (fun l rest c m' n' a' t => ⟨?_, fun r m'' run => ?_⟩) arranged .one a₁
    (topping_start h (hc.perm hperm) hdeep)
  · exact agrees_addLiteral a' t.held (t.cubic.allocated l List.mem_cons_self)
      (t.below l List.mem_cons_self)
  · exact (t.ends_addLiteral.of_ok run).2.1

theorem agrees_extendVars (count : Nat) : Agrees (extendVars count) m n := by
  have extended : ∀ {m : Manager}, m.Thorough →
      ({ m with order := m.order.extend (count % twoPow 32) } : Manager).Thorough := by
    intro m t
    obtain ⟨h', ext, _⟩ := (wellFormed_extendVars t.toWellFormed count).of_ok rfl
    refine t.widen ⟨ext, fun v hv => t.order.levelAt_extend hv _, ?_⟩ h' fun _ _ hk => hk
    show m.order.size ≤ (m.order.extend _).size
    rw [Order.size_extend]
    exact Nat.le_add_right _ _
  refine agrees_of_ok (a := m.order.size + 1) rfl (by rw [a.order]; rfl)
    ⟨extended a.left, extended a.right, a.nodes, ?_⟩
  show m.order.extend _ = n.order.extend _
  rw [a.order]

omit a in
/-- A manager without decisions has explored everything. -/
theorem Thorough.reorder (t : m.Thorough) (hsize : m.numNodes = 1) {vs : List Nat} {order : Order}
    (ho : Order.ofList m.numVars vs = .ok order) : ({ m with order } : Manager).Thorough := by
  have ext : m.Extends { m with order } := List.prefix_refl _
  refine ⟨t.toWellFormed.reorder hsize ho, fun key r hk => ?_⟩
  have ha := t.cached key r hk
  cases key with
  | choose f g k => exact trivial
  | project f vars =>
      obtain ⟨vs, hset, _⟩ := t.covered _ r hk
      have hleaf : f.index = 1 := by
        have := ha.1.1
        have := ha.1.2
        omega
      exact ⟨vs, ext.isVarSet hset, .leaf (Edge.isTerminal_eq_true.mpr hleaf)⟩

theorem agrees_setVarOrder (vs : List Nat) : Agrees (setVarOrder vs) m n := by
  rw [Agrees, setVarOrder, setVarOrder, ← a.numNodes_eq, ← a.numVars_eq]
  by_cases hsize : m.numNodes = 1
  · rw [if_neg (not_not.mpr hsize), if_neg (not_not.mpr hsize)]
    cases ho : Order.ofList m.numVars vs with
    | error fault => exact ⟨rfl, a⟩
    | ok order => exact ⟨rfl, a.left.reorder hsize ho,
        a.right.reorder (a.numNodes_eq ▸ hsize) (a.numVars_eq ▸ ho), a.nodes, rfl⟩
  · rw [if_pos hsize, if_pos hsize]
    exact ⟨rfl, a⟩

end Variables

/-! ## 8. Texts -/

/-- One decision agrees, also where its variable is not there. -/
theorem agrees_buildStep {m n : Manager} (a : Alike m n) {built : Body.Built} (hb : built.Held m)
    (step : Body.Step) : Agrees (buildStep built step) m n ∧
      ∀ built' m', buildStep built step m = .ok built' m' → built'.Held m' := by
  have h := a.left.toWellFormed
  constructor
  · unfold buildStep
    refine (agrees_mkVar a step.target).bind fun x m₁ n₁ run₁ a₁ => ?_
    obtain ⟨next₁, hx, _⟩ := (makes_mkVar h (allocated_of_mkVar_eq run₁)).of_ok run₁
    have hhigh := next₁.holds (hb.decode h.toFounded step.high)
    have hlow := next₁.holds (hb.decode h.toFounded step.low)
    refine (agrees_ite a₁ hx hhigh hlow).bind fun e m₂ n₂ _ a₂ => ?_
    exact agrees_pure a₂ _
  · intro built' m' run
    obtain ⟨_, _, run₁, _⟩ := run_ok_of_bind run
    exact ((ends_buildStep h hb (allocated_of_mkVar_eq run₁)).of_ok run).2

/-- **Reading a text agrees**, whatever its variables stand for. -/
theorem agrees_readBody {m n : Manager} (a : Alike m n) (remap : Nat → Option Nat)
    (lines : List (Option (List Char))) : Agrees (readBody remap lines) m n := by
  unfold readBody build
  refine (Agrees.foldlM (i := fun _ built m' => built.Held m')
    (fun step _ built m' n' a' hb => agrees_buildStep a' hb step) _ ∅ a
    (Body.held_empty m)).bind fun built m' n' _ a' => ?_
  exact agrees_pure a' _

end Factbase.Diagram.Manager
