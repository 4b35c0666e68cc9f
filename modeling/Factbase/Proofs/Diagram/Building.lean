import Factbase.Proofs.Diagram.Canonical
import Factbase.Proofs.Outcome

/-!
# Building diagrams

What the steps of a manager do to a well-formed one.

* `Manager.Makes act m value`: the program `act` comes to an edge with the value `value ρ` under
  every assignment `ρ`; the manager behind it is well-formed and has only grown;
* `Manager.Proceeds act m post`: the same of the manager alone, also where `act` stops;
* `makes_mkNode`, `makes_mkVar`: **single decisions**;
* `ends_lookUp`, `ends_remember`: **the cache answers rightly and may keep right results**;
* `wellFormed_create`, `wellFormed_extendVars`, `wellFormed_setVarOrder`: managers without
  decisions, and their variables.
-/

namespace Factbase.Diagram.Manager

/-! ## 1. The shape of a specification -/

/-- The manager behind a step is well-formed and has only grown. -/
def Next (m m' : Manager) : Prop := m'.WellFormed ∧ m.Grows m'

/-- **The program makes an edge with the given value under every assignment.** -/
def Makes (act : Op Edge) (m : Manager) (value : Assignment → Bool) : Prop :=
  Ends act m fun r m' => m.Next m' ∧ m'.Holds r ∧ ∀ ρ, m'.eval ρ r = value ρ

theorem Next.refl {m : Manager} (h : m.WellFormed) : m.Next m := ⟨h, .refl m⟩

theorem Next.trans {m₁ m₂ m₃ : Manager} (h : m₁.Next m₂) (h' : m₂.Next m₃) : m₁.Next m₃ :=
  ⟨h'.1, h.2.trans h'.2⟩

section Next

variable {m m' : Manager} (n : m.Next m') (h : m.WellFormed) {e : Edge}

include n

theorem Next.holds (he : m.Holds e) : m'.Holds e := n.2.nodes.holds he

theorem Next.numVars_eq : m'.numVars = m.numVars := by rw [numVars, numVars, n.2.order]

include h

theorem Next.eval_eq (he : m.Holds e) (ρ : Assignment) : m'.eval ρ e = m.eval ρ e :=
  n.2.nodes.eval_eq h.toFounded he ρ

end Next

/-- What is made may be said in other words. -/
theorem Makes.congr {act : Op Edge} {m : Manager} {value value' : Assignment → Bool}
    (h : Makes act m value) (same : ∀ ρ, value ρ = value' ρ) : Makes act m value' :=
  h.mono fun _ _ ⟨hn, hr, hv⟩ => ⟨hn, hr, fun ρ => (hv ρ).trans (same ρ)⟩

/-- An edge that is there is made without work. -/
theorem makes_pure {m : Manager} (h : m.WellFormed) {e : Edge} (he : m.Holds e) :
    Makes (pure e) m fun ρ => m.eval ρ e :=
  ends_pure ⟨.refl h, he, fun _ => rfl⟩

/-- Behind a step that keeps the manager well-formed the rest is made there. -/
theorem makes_bind {α : Type} {act : Op α} {next : α → Op Edge} {m : Manager}
    {q : α → Manager → Prop} {value : Assignment → Bool}
    (h : Ends act m fun a m' => m.Next m' ∧ q a m')
    (hn : ∀ a m', m.Next m' → q a m' → Makes (next a) m' value) :
    Makes (act >>= next) m value :=
  Ends.bind h fun a m' ⟨hm, hq⟩ =>
    (hn a m' hm hq).mono fun _ _ ⟨hm', hr', hv'⟩ => ⟨hm.trans hm', hr', hv'⟩

/-- What is made behind an edge may use that edge. -/
theorem Makes.bind {act : Op Edge} {next : Edge → Op Edge} {m : Manager}
    {value value' : Assignment → Bool} (h : Makes act m value)
    (hn : ∀ r m', m.Next m' → m'.Holds r → (∀ ρ, m'.eval ρ r = value ρ) →
      Makes (next r) m' value') : Makes (act >>= next) m value' :=
  makes_bind h fun r m' hm ⟨hr, hv⟩ => hn r m' hm hr hv

theorem Makes.of_run_eq {act act' : Op Edge} {m : Manager} {value : Assignment → Bool}
    (h : Makes act m value) (same : act' m = act m) : Makes act' m value := by
  obtain ⟨r, m', run, hr⟩ := h
  exact ⟨r, m', same.trans run, hr⟩

/-- Two programs run alike that begin alike and go on alike with what is made. -/
theorem Makes.bind_eq {act act' : Op Edge} {next next' : Edge → Op Edge} {m : Manager}
    {value : Assignment → Bool} (h : Makes act' m value) (same : act m = act' m)
    (hn : ∀ r m', m.Next m' → m'.Holds r → (∀ ρ, m'.eval ρ r = value ρ) →
      next r m' = next' r m') : (act >>= next) m = (act' >>= next') m := by
  obtain ⟨r, m', run, n, hr, hval⟩ := h
  rw [bind_of_ok run, bind_of_ok (same.trans run)]
  exact hn r m' n hr hval

/-- A question with a known answer. -/
theorem ask_eq {α : Type} {question : Manager → Except Fault α} {m : Manager} {a : α}
    (h : question m = .ok a) : ask question m = .ok a m := by
  rw [ask, h]

/-- Behind a question with a known answer the rest goes on in the same manager. -/
theorem ask_bind {α β : Type} {question : Manager → Except Fault α} {m : Manager} {a : α}
    (h : question m = .ok a) {next : α → Op β} : (ask question >>= next) m = next a m :=
  bind_of_ok (ask_eq h)

/-- A question that is answered leaves the manager alone. -/
theorem of_ask_eq {α : Type} {question : Manager → Except Fault α} {m m' : Manager} {a : α}
    (h : ask question m = .ok a m') : question m = .ok a ∧ m' = m := by
  unfold ask at h
  cases hq : question m with
  | error fault => rw [hq] at h; cases h
  | ok b =>
      rw [hq] at h
      obtain ⟨rfl, rfl⟩ := EStateM.Result.ok.inj h
      exact ⟨rfl, rfl⟩

/-- The program goes on to managers behind the one it starts from, also where it stops. -/
def Proceeds {α : Type} (act : Op α) (m : Manager) (post : α → Manager → Prop) : Prop :=
  Upholds m.Next act m post

section Proceeds

variable {α β : Type} {act : Op α} {m : Manager} {post : α → Manager → Prop}

theorem proceeds_pure (h : m.WellFormed) {a : α} (hp : post a m) :
    Proceeds (pure a : Op α) m post := upholds_pure (.refl h) hp

theorem proceeds_ask (h : m.WellFormed) {question : Manager → Except Fault α}
    (hp : ∀ a, question m = .ok a → post a m) : Proceeds (ask question) m post := by
  cases hq : question m with
  | ok a => exact upholds_of_ok (ask_eq hq) (.refl h) (hp a hq)
  | error fault => exact upholds_of_error (by rw [ask, hq]) (.refl h)

theorem proceeds_of_ends (h : Ends act m fun a m' => m.Next m' ∧ post a m') :
    Proceeds act m post := h.upholds fun _ _ hp => hp

theorem Makes.proceeds {act : Op Edge} {value : Assignment → Bool} (h : Makes act m value) :
    Proceeds act m fun e m' => m'.Holds e := h.upholds fun _ _ ⟨n, he, _⟩ => ⟨n, he⟩

theorem Proceeds.bind {next : α → Op β} {p : β → Manager → Prop} (h : Proceeds act m post)
    (hn : ∀ a m', m.Next m' → post a m' → Proceeds (next a) m' p) :
    Proceeds (act >>= next) m p :=
  Upholds.bind h fun a m' n hp => by
    have hrest := hn a m' n hp
    cases run : next a m' with
    | ok b m'' => exact upholds_of_ok run (n.trans (hrest.of_ok run).1) (hrest.of_ok run).2
    | error e m'' => exact upholds_of_error run (n.trans (hrest.of_error run))

end Proceeds

/-! ## 2. The cache -/

/-- A well-formed manager may change its cache for any other sound one. -/
theorem WellFormed.withCache {m : Manager} (h : m.WellFormed) (cache : Cache OpKey Edge)
    (sound : ∀ key r, cache.Keeps key r → m.Answers key r) : m.Next { m with cache } := by
  have grows : m.Grows { m with cache } := ⟨List.prefix_refl _, rfl⟩
  refine ⟨⟨⟨h.order, h.leaf, fun i hi hi' => ?_⟩, h.regular, h.reduced, h.consed,
    fun key r hk => ?_⟩, grows⟩
  · exact grows.placed (by omega) hi' (h.placed i hi hi')
  · exact grows.nodes.answers h.toFounded (sound key r hk)

/-- **A look-up that answers answers rightly.** -/
theorem ends_lookUp {m : Manager} (h : m.WellFormed) (key : OpKey) :
    Ends (lookUp key) m fun found m' => m.Next m' ∧ ∀ r, found = some r → m'.Answers key r := by
  obtain ⟨hfound, hplaces⟩ := m.cache.get_eq key
  have hn : m.Next { m with cache := (m.cache.get key).2 } :=
    h.withCache _ fun key' r ⟨p, hp⟩ => h.cached key' r ⟨p, hplaces ▸ hp⟩
  refine ⟨(m.cache.get key).1, { m with cache := (m.cache.get key).2 }, rfl, hn,
    fun r hr => ?_⟩
  rw [hfound] at hr
  exact hn.2.nodes.answers h.toFounded (h.cached key r (Cache.keeps_of_find? hr))

/-- A look-up changes the cache and nothing else. -/
theorem lookUp_bind_congr {α : Type} {m : Manager} {key : OpKey} {next next' : Option Edge → Op α}
    (h : ∀ found cache, next found { m with cache } = next' found { m with cache }) :
    (lookUp key >>= next) m = (lookUp key >>= next') m := h _ _

/-- **A right result may be kept.** -/
theorem ends_remember {m : Manager} (h : m.WellFormed) {key : OpKey} {r : Edge}
    (ha : m.Answers key r) : Ends (remember key r) m fun _ m' => m.Next m' := by
  refine ⟨(), { m with cache := m.cache.insert key r }, rfl, h.withCache _ fun key' r' hk => ?_⟩
  rcases Cache.keeps_insert hk with ⟨rfl, rfl⟩ | hk
  · exact ha
  · exact h.cached key' r' hk

/-- Keeping a right result is no hindrance to what is made behind it. -/
theorem makes_remember {m : Manager} (h : m.WellFormed) {key : OpKey} {r : Edge}
    (ha : m.Answers key r) {next : Op Edge} {value : Assignment → Bool}
    (hn : ∀ m', m.Next m' → Makes next m' value) : Makes (do remember key r; next) m value :=
  makes_bind ((ends_remember h ha).mono fun _ _ n => ⟨n, trivial⟩) fun _ m' n _ => hn m' n

/-- Look a result up, or work it out and keep it. -/
def memo (key : OpKey) (flip : Bool) (work : Op Edge) : Op Edge := do
  if let some known ← lookUp key then
    return known.complementIf flip
  let result ← work
  remember key result
  return result.complementIf flip

/-- The answers to a key, now and later, are the edges with the given value. -/
def Asks (m : Manager) (key : OpKey) (value : Assignment → Bool) : Prop :=
  ∀ m' r, m.Next m' → (m'.Answers key r ↔ m'.Holds r ∧ ∀ ρ, m'.eval ρ r = value ρ)

/-- **Where a result is looked up or worked out, it has the value that the key asks for.** -/
theorem makes_memo {m : Manager} (h : m.WellFormed) {key : OpKey} {value : Assignment → Bool}
    (asks : m.Asks key value) {work : Op Edge}
    (made : ∀ m', m.Next m' → Makes work m' value) (flip : Bool) :
    Makes (memo key flip work) m fun ρ => flip ^^ value ρ := by
  refine makes_bind (ends_lookUp h key) fun found m₁ n₁ hfound => ?_
  cases found with
  | some known =>
      obtain ⟨hr, hval⟩ := (asks m₁ known n₁).mp (hfound known rfl)
      refine (makes_pure n₁.1 (holds_complementIf.mpr hr)).congr fun ρ => ?_
      rw [n₁.1.eval_complementIf hr, hval]
  | none =>
      refine (made m₁ n₁).bind fun r m₂ n₂ hr hval => ?_
      have hanswers := (asks m₂ r (n₁.trans n₂)).mpr ⟨hr, hval⟩
      refine makes_remember n₂.1 hanswers fun m₃ n₃ => ?_
      refine (makes_pure n₃.1 (holds_complementIf.mpr (n₃.holds hr))).congr fun ρ => ?_
      rw [n₃.1.eval_complementIf (n₃.holds hr), n₃.eval_eq n₂.1 hr, hval]

/-- Work that comes to the same now and later does so where results are looked up. -/
theorem memo_congr {m : Manager} (h : m.WellFormed) {key : OpKey} {flip : Bool}
    {work work' : Op Edge} (same : ∀ m', m.Next m' → work m' = work' m') :
    memo key flip work m = memo key flip work' m := by
  obtain ⟨found, m', run, n, _⟩ := ends_lookUp h key
  rw [memo, memo, bind_of_ok run, bind_of_ok run]
  cases found with
  | some known => rfl
  | none => exact bind_congr_run (same m' n)

/-! ## 3. Decisions -/

/-- A decision that may be stored. -/
structure Admits (m : Manager) (n : Node) : Prop where
  var : m.order.Allocated n.var
  lowHeld : m.Holds n.low
  highHeld : m.Holds n.high
  lowBelow : m.order.levelAt n.var < m.rank n.low
  highBelow : m.order.levelAt n.var < m.rank n.high
  regular : n.high.negated = false
  reduced : n.low ≠ n.high

section Appending

variable {m : Manager} {n : Node} {nodes : Table Node}
  (hvalues : nodes.values = m.nodes.values ++ [n])

include hvalues

theorem grows_append : m.Grows { m with nodes } := ⟨⟨[n], hvalues.symm⟩, rfl⟩

theorem numNodes_append : ({ m with nodes } : Manager).numNodes = m.numNodes + 1 := by
  show nodes.size = m.nodes.size + 1
  rw [← Table.length_values, hvalues, List.length_append, Table.length_values]
  rfl

theorem stored_append : ({ m with nodes } : Manager).stored (m.numNodes + 1) = n := by
  rw [stored, show (m.numNodes + 1) = m.nodes.size + 1 from rfl,
    Table.stored?_append_last hvalues]
  rfl

/-- A statement about all decisions is one about the old ones and one about the new one. -/
theorem forall_append {motive : Nat → Node → Prop}
    (old : ∀ i, 2 ≤ i → i ≤ m.numNodes → motive i (m.stored i))
    (new : motive (m.numNodes + 1) n) :
    ∀ i, 2 ≤ i → i ≤ ({ m with nodes } : Manager).numNodes →
      motive i (({ m with nodes } : Manager).stored i) := by
  intro i hi hi'
  rw [numNodes_append hvalues] at hi'
  rcases Nat.lt_or_ge m.numNodes i with hlt | hle
  · rw [show i = m.numNodes + 1 by omega, stored_append hvalues]
    exact new
  · rw [(grows_append hvalues).nodes.stored_eq (by omega) hle]
    exact old i hi hle

/-- The new decision is placed where the old manager admits it. -/
theorem founded_append (h : m.Founded) (ha : m.Admits n) :
    ({ m with nodes } : Manager).Founded := by
  have grows := grows_append hvalues
  have hleaf := h.leaf
  have hsize := numNodes_append hvalues
  have hnew := stored_append hvalues
  have hl := ha.lowHeld.2
  have hh := ha.highHeld.2
  refine ⟨h.order, by omega, fun i hi hi' => ?_⟩
  rw [hsize] at hi'
  rcases Nat.lt_or_ge m.numNodes i with hlt | hle
  · obtain rfl : i = m.numNodes + 1 := by omega
    refine ⟨?_, ?_, ?_, ?_, ?_, ?_, ?_⟩ <;> rw [hnew]
    · exact ha.var
    · exact grows.nodes.holds ha.lowHeld
    · exact grows.nodes.holds ha.highHeld
    · omega
    · omega
    · rw [grows.rank_eq ha.lowHeld]; exact ha.lowBelow
    · rw [grows.rank_eq ha.highHeld]; exact ha.highBelow
  · exact grows.placed (by omega) hle (h.placed i hi hle)

/-- The chains of the old decisions stay, and the new one joins that of its bucket. -/
theorem consed_append {chain : Nat → List Nat}
    (hbuckets : nodes.buckets.size = m.nodes.buckets.size) (hleaf : 1 ≤ m.numNodes)
    (hdecisions : ∀ b, ∀ i ∈ chain b, 2 ≤ i)
    (hall : ∀ i, 2 ≤ i → i ≤ m.numNodes → i ∈ chain (m.nodes.bucketOf (m.stored i)))
    (hchained : nodes.Chained (Function.update chain (m.nodes.bucketOf n)
      (chain (m.nodes.bucketOf n) ++ [m.numNodes + 1]))) :
    ({ m with nodes } : Manager).Consed := by
  have hbucket : ∀ w, nodes.bucketOf w = m.nodes.bucketOf w := fun w => by
    rw [Table.bucketOf, Table.bucketOf, hbuckets]
  have all := forall_append hvalues (motive := fun i w => i ∈ Function.update chain
    (m.nodes.bucketOf n) (chain (m.nodes.bucketOf n) ++ [m.numNodes + 1]) (nodes.bucketOf w))
  refine ⟨_, hchained, fun b i hi => ?_, all (fun i hi hi' => ?_) ?_⟩
  · rcases Table.mem_update_append.mp hi with hi | ⟨_, rfl⟩
    · exact hdecisions b i hi
    · exact Nat.succ_le_succ hleaf
  · rw [hbucket]
    exact Table.mem_update_append.mpr (Or.inl (hall i hi hi'))
  · rw [hbucket]
    exact Table.mem_update_append.mpr (Or.inr ⟨rfl, rfl⟩)

end Appending

/-- A decision is found where the chains have it, and appended where they have not, whatever it
decides. -/
theorem Consed.intern_cases {m : Manager} (h : m.Consed) (hleaf : 1 ≤ m.numNodes) (n : Node) :
    (∃ i, 2 ≤ i ∧ i ≤ m.numNodes ∧ m.stored i = n ∧ intern n m = .ok i m) ∨
    ((∀ i, 2 ≤ i → i ≤ m.numNodes → m.stored i ≠ n) ∧ ∃ nodes,
      nodes.values = m.nodes.values ++ [n] ∧ ({ m with nodes } : Manager).Consed ∧
      intern n m = .ok (m.numNodes + 1) { m with nodes }) := by
  obtain ⟨chain, hchained, hdecisions, hall⟩ := h
  by_cases hold : ∃ i ∈ chain (m.nodes.bucketOf n), m.nodes.stored? i = some n
  · obtain ⟨i, hi, hv⟩ := hold
    refine Or.inl ⟨i, hdecisions _ i hi, (Table.stored?_le hv).2, by rw [stored, hv]; rfl, ?_⟩
    rw [intern, hchained.put_known hi hv]
  · obtain ⟨nodes, hput, hvalues, hbuckets, hchained'⟩ := hchained.put_new (v := n)
      fun i hi hv => hold ⟨i, hi, hv⟩
    refine Or.inr ⟨fun i hi hi' hs => ?_, nodes, hvalues,
      consed_append hvalues hbuckets hleaf hdecisions hall hchained', by rw [intern, hput]; rfl⟩
    obtain ⟨w, hw⟩ := Table.exists_stored? (t := m.nodes) (i := i) (by omega) hi'
    have hbucket := hall i hi hi'
    rw [hs] at hbucket
    rw [stored, hw] at hs
    exact hold ⟨i, hbucket, hw.trans (congrArg some hs)⟩

/-- **A decision is found where it is stored, and appended where it is new.** -/
theorem intern_cases {m : Manager} (h : m.WellFormed) {n : Node} (ha : m.Admits n) :
    (∃ i, 2 ≤ i ∧ i ≤ m.numNodes ∧ m.stored i = n ∧ intern n m = .ok i m) ∨
    ((∀ i, 2 ≤ i → i ≤ m.numNodes → m.stored i ≠ n) ∧ ∃ nodes,
      nodes.values = m.nodes.values ++ [n] ∧ ({ m with nodes } : Manager).WellFormed ∧
      intern n m = .ok (m.numNodes + 1) { m with nodes }) := by
  refine (h.consed.intern_cases h.leaf n).imp_right fun ⟨hnew, nodes, hvalues, hconsed, run⟩ =>
    ⟨hnew, nodes, hvalues, ?_, run⟩
  have grows := grows_append hvalues
  exact {
    toFounded := founded_append hvalues h.toFounded ha
    regular := forall_append hvalues (motive := fun _ n => n.high.negated = false)
      h.regular ha.regular
    reduced := forall_append hvalues (motive := fun _ n => n.low ≠ n.high) h.reduced ha.reduced
    consed := hconsed
    cached := fun key r hk => grows.nodes.answers h.toFounded (h.cached key r hk)
  }

/-- Behind that the decision is stored under the index that is answered. -/
theorem ends_intern {m : Manager} (h : m.WellFormed) {n : Node} (ha : m.Admits n) :
    Ends (intern n) m fun i m' => m.Next m' ∧ 2 ≤ i ∧ i ≤ m'.numNodes ∧ m'.stored i = n := by
  rcases intern_cases h ha with ⟨i, hi, hi', hs, run⟩ | ⟨_, nodes, hvalues, hm, run⟩
  · exact ⟨i, m, run, .refl h, hi, hi', hs⟩
  · exact ⟨m.numNodes + 1, { m with nodes }, run, ⟨hm, grows_append hvalues⟩,
      Nat.succ_le_succ h.leaf, (numNodes_append hvalues).ge, stored_append hvalues⟩

section Decisions

variable {m : Manager} (h : m.WellFormed) {v : Nat} {low high : Edge}
  (hv : m.order.Allocated v) (hl : m.Holds low) (hh : m.Holds high)
  (below : m.order.levelAt v < m.rank low) (below' : m.order.levelAt v < m.rank high)

include h hv hl hh below below'

theorem makes_shared (regular : high.negated = false) :
    Makes (shared v low high) m fun ρ => if ρ v then m.eval ρ high else m.eval ρ low := by
  unfold shared
  by_cases same : low = high
  · rw [if_pos same]
    refine (makes_pure h hl).congr fun ρ => ?_
    rw [same, ite_self]
  · rw [if_neg same]
    refine (ends_intern h (n := ⟨v, low, high⟩) ⟨hv, hl, hh, below, below', regular, same⟩).bind
      fun i m' ⟨hn, hi, hi', hs⟩ => ?_
    have he : m'.Holds (.ofIndex i) := holds_ofIndex.mpr ⟨by omega, hi'⟩
    refine ends_pure ⟨hn, he, fun ρ => ?_⟩
    rw [hn.1.eval_ofIndex he (by omega), hs, hn.eval_eq h hl, hn.eval_eq h hh]

/-- **The edge that decides between two edges below its variable.** -/
theorem makes_mkNode :
    Makes (mkNode v low high) m fun ρ => if ρ v then m.eval ρ high else m.eval ρ low := by
  unfold mkNode
  refine ends_unless hv.1 ?_
  cases hn : high.negated with
  | false => exact makes_shared h hv hl hh below below' hn
  | true =>
      rw [if_pos rfl]
      refine ends_bind (ask_eq (complement_eq hl)) (ends_bind (ask_eq (complement_eq hh)) ?_)
      have hmade := makes_shared h hv (holds_neg.mpr hl) (holds_neg.mpr hh)
        (by rwa [rank_neg]) (by rwa [rank_neg]) (by rw [Edge.negated_neg hh.1, hn]; rfl)
      refine hmade.bind fun r m' hm hr hval => ?_
      refine ends_pure ⟨.refl hm.1, holds_neg.mpr hr, fun ρ => ?_⟩
      rw [hm.1.eval_neg hr, hval, h.eval_neg hl, h.eval_neg hh]
      show (!if ρ v then !m.eval ρ high else !m.eval ρ low) =
        if ρ v then m.eval ρ high else m.eval ρ low
      cases ρ v <;> exact Bool.not_not _

end Decisions

/-- **The edge of a variable.** -/
theorem makes_mkVar {m : Manager} (h : m.WellFormed) {v : Nat} (hv : m.order.Allocated v) :
    Makes (mkVar v) m fun ρ => ρ v := by
  unfold mkVar
  refine ends_unless hv.1 (ends_bind (a := m) rfl (ends_unless (Nat.not_lt.mpr hv.2) ?_))
  have hlt := h.order.levelAt_lt hv
  refine (makes_mkNode h hv h.holds_zero h.holds_one hlt hlt).congr fun ρ => ?_
  rw [eval_one, eval_zero]
  cases ρ v <;> rfl

/-! ## 4. Managers without decisions -/

/-- **A new manager is well-formed**: it has the leaf and no variables. -/
theorem wellFormed_create {storageBits cacheBits : Nat} {minFree : Float} {m : Manager}
    (h : create storageBits cacheBits minFree = .ok m) :
    m.WellFormed ∧ m.numNodes = 1 ∧ m.order = .empty := by
  unfold create at h
  cases ht : Table.create (α := Node) storageBits minFree with
  | error fault => rw [ht] at h; cases h
  | ok nodes =>
      cases hc : Cache.create (κ := OpKey) (ν := Edge) cacheBits with
      | error fault => rw [ht, hc] at h; cases h
      | ok cache =>
          rw [ht, hc] at h
          obtain rfl := Except.ok.inj h
          obtain ⟨hvalues, hchained⟩ := Table.create_chained ht
          have hsize : (nodes.add Node.leaf).2.size = 1 := by
            rw [Table.add_size, ← Table.length_values, hvalues]
            rfl
          have none : ∀ {motive : Nat → Prop} i, 2 ≤ i → i ≤ (nodes.add Node.leaf).2.size →
              motive i := fun i hi hi' => by omega
          refine ⟨⟨⟨Order.sound_empty, hsize.ge, none⟩, none, none,
            ⟨_, hchained.add Node.leaf, fun _ _ hi => absurd hi List.not_mem_nil, none⟩,
            fun key r hk => ?_⟩, hsize, rfl⟩
          exact absurd hk (Cache.not_keeps_create hc)

section Reordering

variable {m : Manager} (h : m.WellFormed)

include h

/-- **Fresh variables change nothing that is there.** -/
theorem wellFormed_extendVars (count : Nat) :
    Ends (extendVars count) m fun _ m' => m'.WellFormed ∧ m.Extends m' ∧
      m'.order = m.order.extend (count % twoPow 32) := by
  have ext : m.Extends { m with order := m.order.extend (count % twoPow 32) } :=
    List.prefix_refl _
  have hrank : ∀ {e l}, m.Holds e → m.Holds e → l < m.rank e →
      l < ({ m with order := m.order.extend (count % twoPow 32) } : Manager).rank e := by
    intro e l he _ hl
    cases ht : e.isTerminal with
    | true =>
        rw [rank_of_terminal ht] at hl ⊢
        refine Nat.lt_of_lt_of_le hl ?_
        show m.order.size ≤ (m.order.extend _).size
        rw [Order.size_extend]
        omega
    | false =>
        rw [rank_of_not_terminal ht] at hl ⊢
        rw [ext.varOf_eq he]
        show l < (m.order.extend _).levelAt _
        rwa [h.order.levelAt_extend (h.allocated he ht)]
  refine ⟨m.order.size + 1, { m with order := m.order.extend (count % twoPow 32) }, rfl,
    ⟨⟨h.order.extend _, h.leaf, fun i hi hi' => ?_⟩, h.regular, h.reduced, h.consed,
    fun key r hk => ext.answers h.toFounded (h.cached key r hk)⟩, ext, rfl⟩
  obtain ⟨hvar, hlow, hhigh, hlb, hhb, hll, hhl⟩ := h.placed i hi hi'
  have hlevel := h.order.levelAt_extend hvar (count % twoPow 32)
  exact ⟨hvar.extend _, hlow, hhigh, hlb, hhb, by
    show (m.order.extend _).levelAt (m.stored i).var < _
    rw [hlevel]
    exact hrank hlow hlow hll, by
    show (m.order.extend _).levelAt (m.stored i).var < _
    rw [hlevel]
    exact hrank hhigh hhigh hhl⟩

/-- A manager without decisions is well-formed over any order of its variables. -/
theorem WellFormed.reorder (hsize : m.numNodes = 1) {vs : List Nat} {order : Order}
    (ho : Order.ofList m.numVars vs = .ok order) : ({ m with order } : Manager).WellFormed := by
  have ext : m.Extends { m with order } := List.prefix_refl _
  have none : ∀ {motive : Nat → Prop} i, 2 ≤ i → i ≤ m.numNodes → motive i :=
    fun i hi hi' => by omega
  exact ⟨⟨(Order.sound_ofList ho).1, h.leaf, none⟩, none, none, h.consed,
    fun key r hk => ext.answers h.toFounded (h.cached key r hk)⟩

/-- **A manager without decisions takes any arrangement of its variables**, and refuses all other
lists. -/
theorem wellFormed_setVarOrder (vs : List Nat) :
    (∃ order, setVarOrder vs m = .ok () { m with order } ∧ m.numNodes = 1 ∧
      Order.ofList m.numVars vs = .ok order ∧ ({ m with order } : Manager).WellFormed) ∨
    ∃ fault, setVarOrder vs m = .error fault m := by
  unfold setVarOrder
  by_cases hnodes : m.numNodes = 1
  · rw [if_neg (not_not.mpr hnodes)]
    cases ho : Order.ofList m.numVars vs with
    | error fault => exact Or.inr ⟨fault, rfl⟩
    | ok order => exact Or.inl ⟨order, rfl, hnodes, rfl, h.reorder hnodes ho⟩
  · rw [if_pos hnodes]
    exact Or.inr ⟨_, rfl⟩

end Reordering

end Factbase.Diagram.Manager
