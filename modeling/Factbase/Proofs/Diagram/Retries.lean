import Factbase.Proofs.Diagram.Choice

/-!
# Calls that split nothing

If-then-else picks a normal triple at one go. Here it is done by calls instead: a call whose triple
repeats its condition, or has a branch above it, calls itself with another triple of the same edges.
Such a *retry* takes no edge to a child, so that the sizes of the edges do not show that retries
come to an end.

* `Triple.standard?`, `Triple.swap?`: the rules, tried in this order;
* `Retry m t u`: a call for `t` does nothing but to call itself for `u`;
* `Triple.retries`: how many retries there can still be, and `retry_spec`: **every retry is one less
  of them, and changes neither the answer nor the normal form**;
* `chooseByCalls`: if-then-else where every rule is a call, with all that is taken for granted
  checked: that a level is not that of the leaves, that a node is given children below it;
* `chooseByCalls_eq`: **it comes to the same within `cost` nested calls, and no check fails.**
-/

namespace Factbase.Diagram

open Manager

namespace Triple

/-- The triple in which a branch that repeats the condition is a constant. -/
def standard? (t : Triple) : Option Triple :=
  if t.yes = t.cond then some ⟨t.cond, .one, t.no⟩
  else if t.no = t.cond then some ⟨t.cond, t.yes, .zero⟩
  else if t.yes = -t.cond then some ⟨t.cond, .zero, t.no⟩
  else if t.no = -t.cond then some ⟨t.cond, t.yes, .one⟩
  else none

/-- The triple in which a branch that tests a higher variable has become the condition. The levels
are those of the three parts. -/
def swap? (t : Triple) (i j k : Nat) : Option Triple :=
  if t.yes = .one ∧ k < i then some ⟨t.no, .one, t.cond⟩
  else if t.no = .zero ∧ j < i then some ⟨t.yes, t.cond, .zero⟩
  else if t.no = .one ∧ j < i then some ⟨-t.yes, -t.cond, .one⟩
  else if t.yes = .zero ∧ k < i then some ⟨-t.no, .zero, -t.cond⟩
  else none

/-- The answer to a triple that is settled or asks for the complement of its condition. -/
def answer? (t : Triple) : Option Edge :=
  match t.settled? with
  | some answer => some answer
  | none => if t.isComplement then some (-t.cond) else none

/-- A branch is the condition or its complement. -/
def Repeats (cond e : Edge) : Prop := e = cond ∨ e = -cond

instance (cond e : Edge) : Decidable (Repeats cond e) := inferInstanceAs (Decidable (_ ∨ _))

/-- How many branches repeat the condition. -/
def repeats (t : Triple) : Nat :=
  (if Repeats t.cond t.yes then 1 else 0) + if Repeats t.cond t.no then 1 else 0

/-- How many retries there can still be. Where the last repetition is absorbed, a swap may become
possible. -/
def retries (m : Manager) (t : Triple) : Nat :=
  if t.repeats = 0 then
    if (t.swap? (m.rank t.cond) (m.rank t.yes) (m.rank t.no)).isSome then 1 else 0
  else t.repeats + 1

/-- A bound on how many calls a triple nests. Sizes come first: there are at most three retries
until one of the edges is taken to a child. -/
def cost (m : Manager) (t : Triple) : Nat := 4 * t.weight + t.retries m

end Triple

/-- A call for the first triple does nothing but to call itself for the second one. -/
inductive Retry (m : Manager) (t u : Triple) : Prop where
  | standard (asked : t.answer? = none) (next : t.standard? = some u)
  | swap (asked : t.answer? = none) (standing : t.standard? = none)
      (next : t.swap? (m.rank t.cond) (m.rank t.yes) (m.rank t.no) = some u)

/-! ## 1. Rules for triples -/

namespace Triple

section Rules

variable {t u : Triple}

theorem raise_eq_swap (i j k : Nat) : t.raise i j k = (t.swap? i j k).getD t := by
  unfold raise swap?
  split
  · rfl
  split
  · rfl
  split
  · rfl
  split <;> rfl

/-- The condition of a triple that is not answered at once tests a variable. -/
theorem not_terminal_of_answer (ht : t.answer? = none) :
    t.settled? = none ∧ t.isComplement = false ∧ t.cond.isTerminal = false := by
  unfold answer? at ht
  cases hs : t.settled? with
  | some a => rw [hs] at ht; cases ht
  | none =>
      rw [hs] at ht
      cases hc : t.isComplement with
      | true => rw [hc] at ht; cases ht
      | false => exact ⟨rfl, rfl, not_terminal_of_not_settled hs⟩

/-- A leaf does not repeat a condition that tests a variable. -/
theorem not_repeats_of_terminal (hc : t.cond.isTerminal = false) {e : Edge}
    (he : e.isTerminal = true) : ¬ Repeats t.cond e := by
  rintro (heq | heq) <;> rw [heq] at he
  · rw [hc] at he
    cases he
  · rw [Edge.isTerminal_neg, hc] at he
    cases he

theorem branch_of_not_repeats {e : Edge} (he : ¬ Repeats t.cond e) (known : Edge) :
    branch t.cond e known = e := by
  obtain ⟨hne, hne'⟩ := not_or.mp he
  rw [branch, if_neg hne, if_neg hne']

/-- A triple that repeats nothing has nothing to absorb. -/
theorem absorb_of_not_repeats (hy : ¬ Repeats t.cond t.yes) (hn : ¬ Repeats t.cond t.no) :
    t.absorb = t := by
  rw [absorb, branch_of_not_repeats hy, branch_of_not_repeats hn]

theorem standard?_eq_none_iff :
    t.standard? = none ↔ ¬ Repeats t.cond t.yes ∧ ¬ Repeats t.cond t.no := by
  unfold standard? Repeats
  split_ifs <;> simp_all

/-- **A standard rule absorbs one branch**, which repeats the condition. -/
theorem standard?_cases (h : t.standard? = some u) :
    (Repeats t.cond t.yes ∧ (branch t.cond t.yes .one).isTerminal = true ∧
      u = ⟨t.cond, branch t.cond t.yes .one, t.no⟩) ∨
    (Repeats t.cond t.no ∧ (branch t.cond t.no .zero).isTerminal = true ∧
      u = ⟨t.cond, t.yes, branch t.cond t.no .zero⟩) := by
  unfold standard? at h
  unfold branch
  split at h
  · rename_i hy
    exact .inl ⟨.inl hy, by rw [if_pos hy]; rfl, by rw [if_pos hy]; exact (Option.some.inj h).symm⟩
  rename_i hy
  split at h
  · rename_i hn
    exact .inr ⟨.inl hn, by rw [if_pos hn]; rfl, by rw [if_pos hn]; exact (Option.some.inj h).symm⟩
  rename_i hn
  split at h
  · rename_i hy'
    rw [if_neg hy, if_pos hy']
    exact .inl ⟨.inr hy', rfl, (Option.some.inj h).symm⟩
  split at h
  · rename_i hn'
    rw [if_neg hn, if_pos hn']
    exact .inr ⟨.inr hn', rfl, (Option.some.inj h).symm⟩
  · cases h

/-- What is known of an edge itself is known. -/
theorem branch_known (e known : Edge) : branch known e known = e := by
  unfold branch
  split
  · rename_i heq
    exact heq.symm
  · split
    · rename_i heq
      exact heq.symm
    · rfl

/-- Where the condition tests a variable, only the branches can answer. -/
theorem answer?_eq (hc : t.cond.isTerminal = false) : t.answer? =
    if t.yes = t.no then some t.yes
    else if t.yes = .one ∧ t.no = .zero then some t.cond
    else if t.yes = .zero ∧ t.no = .one then some (-t.cond)
    else none := by
  obtain ⟨hone, hzero⟩ := not_or.mp (mt Edge.isTerminal_iff.mpr (Bool.not_eq_true _ ▸ hc))
  unfold answer? settled? isComplement
  rw [if_neg hone, if_neg hzero]
  by_cases hsame : t.yes = t.no
  · rw [if_pos hsame, if_pos hsame]
  rw [if_neg hsame, if_neg hsame]
  by_cases hboth : t.yes = .one ∧ t.no = .zero
  · rw [if_pos hboth, if_pos hboth]
  · rw [if_neg hboth, if_neg hboth]
    simp only [Bool.and_eq_true, beq_iff_eq]

/-- Absorption does not lose an answer. -/
theorem answer?_absorb {a : Edge} (ha : t.answer? = some a) : t.absorb.answer? = some a := by
  cases hc : t.cond.isTerminal with
  | true =>
      -- a branch that is not taken makes no difference, and the other one is kept
      unfold answer? settled? at ha ⊢
      rcases Edge.isTerminal_iff.mp hc with hone | hzero
      · rw [if_pos hone] at ha
        rw [absorb, if_pos hone, hone, branch_known]
        exact ha
      · have hone : t.cond ≠ .one := by rw [hzero]; decide
        rw [if_neg hone, if_pos hzero] at ha
        rw [absorb, if_neg hone, if_pos hzero, hzero, branch_known]
        exact ha
  | false =>
      rw [answer?_eq hc] at ha
      rw [answer?_eq (t := t.absorb) hc]
      by_cases hsame : t.yes = t.no
      · -- equal branches may both be the condition, or its complement
        rw [if_pos hsame] at ha
        obtain rfl := Option.some.inj ha
        by_cases hy : t.yes = t.cond
        · have hyes : t.absorb.yes = .one := if_pos hy
          have hno : t.absorb.no = .zero := if_pos (hsame ▸ hy)
          rw [hyes, hno, if_neg (by decide), if_pos ⟨rfl, rfl⟩, hy]
          rfl
        by_cases hy' : t.yes = -t.cond
        · have hyes : t.absorb.yes = .zero := (if_neg hy).trans (if_pos hy')
          have hno : t.absorb.no = .one := (if_neg (hsame ▸ hy)).trans (if_pos (hsame ▸ hy'))
          rw [hyes, hno, if_neg (by decide), if_neg (by decide), if_pos ⟨rfl, rfl⟩, hy']
          rfl
        · have hyes : ¬ Repeats t.cond t.yes := not_or.mpr ⟨hy, hy'⟩
          rw [absorb_of_not_repeats hyes (hsame ▸ hyes), if_pos hsame]
      · -- otherwise both are leaves
        have hleaf : t.yes.isTerminal = true ∧ t.no.isTerminal = true := by
          rw [if_neg hsame] at ha
          simp only [Edge.isTerminal_iff]
          split_ifs at ha <;> simp_all
        rwa [absorb_of_not_repeats (not_repeats_of_terminal hc hleaf.1)
          (not_repeats_of_terminal hc hleaf.2)]

/-- **Whether a triple needs work depends on what absorption leaves of it.** -/
theorem quick?_eq_answer : t.quick? = t.absorb.answer? := by
  cases hs : t.settled? with
  | some a => rw [quick?, hs, answer?_absorb (by rw [answer?, hs])]
  | none => rw [quick?, hs]; rfl

theorem retries_le (m : Manager) : t.retries m ≤ 3 := by
  unfold retries repeats
  split_ifs <;> omega

theorem retries_lt (m : Manager) (hlt : u.repeats < t.repeats) : u.retries m < t.retries m := by
  unfold retries
  split_ifs <;> omega

end Rules

/-! ## 2. Retries come to an end -/

section Retries

variable {m : Manager} (h : m.Founded) {t u : Triple} (ht : t.Held m)

include h ht

/-- **A standard rule is one repetition less** and leaves the same to absorb. -/
theorem standard?_spec (hc : t.cond.isTerminal = false) (hu : t.standard? = some u) :
    u.Held m ∧ u.weight ≤ t.weight ∧ u.retries m < t.retries m ∧ u.absorb = t.absorb := by
  rcases standard?_cases hu with ⟨hrep, hleaf, rfl⟩ | ⟨hrep, hleaf, rfl⟩
  · obtain ⟨hheld, hle⟩ := branch_held (c := t.cond) ht.yes h.holds_one rfl
    have hnot := not_repeats_of_terminal hc hleaf
    refine ⟨⟨ht.cond, hheld, ht.no⟩, by dsimp only [weight]; omega, retries_lt m ?_, ?_⟩
    · rw [repeats, if_neg hnot, repeats, if_pos hrep]
      exact Nat.add_lt_add_right Nat.zero_lt_one _
    · rw [absorb, branch_of_not_repeats hnot, absorb]
  · obtain ⟨hheld, hle⟩ := branch_held (c := t.cond) ht.no h.holds_zero rfl
    have hnot := not_repeats_of_terminal hc hleaf
    refine ⟨⟨ht.cond, ht.yes, hheld⟩, by dsimp only [weight]; omega, retries_lt m ?_, ?_⟩
    · rw [repeats, if_neg hnot, repeats, if_pos hrep]
      exact Nat.add_lt_add_left Nat.zero_lt_one _
    · rw [absorb, branch_of_not_repeats hnot, absorb]

/-- **A triple whose condition stands on top of its branches is where retries end.** -/
theorem standing_of_rank_lt (hy : m.rank t.cond < m.rank t.yes) (hn : m.rank t.cond < m.rank t.no)
    (hone : t.yes.isTerminal ≠ t.no.isTerminal) : t.answer? = none ∧ t.absorb = t ∧
      t.standard? = none ∧ t.swap? (m.rank t.cond) (m.rank t.yes) (m.rank t.no) = none := by
  have hc : t.cond.isTerminal = false := by
    have := h.rank_le ht.yes
    cases hc : t.cond.isTerminal with
    | false => rfl
    | true => rw [rank_of_terminal hc] at hy; omega
  have hrep : ∀ {e : Edge}, m.rank t.cond < m.rank e → ¬ Repeats t.cond e := by
    rintro e hlt (rfl | rfl)
    · exact Nat.lt_irrefl _ hlt
    · rw [rank_neg] at hlt
      exact Nat.lt_irrefl _ hlt
  refine ⟨?_, absorb_of_not_repeats (hrep hy) (hrep hn),
    standard?_eq_none_iff.mpr ⟨hrep hy, hrep hn⟩, ?_⟩
  · rw [answer?_eq hc, if_neg fun hsame => hone (congrArg _ hsame), if_neg, if_neg]
    · rintro ⟨hyes, hno⟩
      rw [hyes, hno] at hone
      exact hone rfl
    · rintro ⟨hyes, hno⟩
      rw [hyes, hno] at hone
      exact hone rfl
  · unfold swap?
    rw [if_neg (by omega), if_neg (by omega), if_neg (by omega), if_neg (by omega)]

/-- A swap brings the higher of two variables on top of the other one and a leaf. -/
theorem swap?_spec (hc : t.cond.isTerminal = false)
    (hu : t.swap? (m.rank t.cond) (m.rank t.yes) (m.rank t.no) = some u) :
    m.rank u.cond < m.rank u.yes ∧ m.rank u.cond < m.rank u.no ∧
      u.yes.isTerminal ≠ u.no.isTerminal := by
  have hle := h.rank_le ht.cond
  have hleaf : true ≠ t.cond.isTerminal := by rw [hc]; decide
  have hleaf' : true ≠ (-t.cond).isTerminal := by rwa [Edge.isTerminal_neg]
  unfold swap? at hu
  split at hu
  · rename_i hlt
    obtain rfl := Option.some.inj hu
    exact ⟨hlt.2.trans_le hle, hlt.2, hleaf⟩
  split at hu
  · rename_i hlt
    obtain rfl := Option.some.inj hu
    exact ⟨hlt.2, hlt.2.trans_le hle, hleaf.symm⟩
  split at hu
  · rename_i hlt
    obtain rfl := Option.some.inj hu
    simp only [rank_neg]
    exact ⟨hlt.2, hlt.2.trans_le hle, hleaf'.symm⟩
  split at hu
  · rename_i hlt
    obtain rfl := Option.some.inj hu
    simp only [rank_neg]
    exact ⟨hlt.2.trans_le hle, hlt.2, hleaf'⟩
  · cases hu

/-- **Every retry is one less of them, and asks for the same.** The triple that is called for has
the same answer and the same normal form. -/
theorem retry_spec (hr : Retry m t u) : u.Held m ∧ u.weight ≤ t.weight ∧
    u.retries m < t.retries m ∧ u.quick? = t.quick? ∧ m.normal u = m.normal t := by
  cases hr with
  | standard asked next =>
      obtain ⟨_, _, hc⟩ := not_terminal_of_answer asked
      obtain ⟨hheld, hle, hlt, hsame⟩ := standard?_spec h ht hc next
      exact ⟨hheld, hle, hlt, by rw [quick?_eq_answer, quick?_eq_answer, hsame],
        by rw [normal, normal, hsame]⟩
  | swap asked standing next =>
      obtain ⟨_, _, hc⟩ := not_terminal_of_answer asked
      have hraise := raise_eq_swap (t := t) (m.rank t.cond) (m.rank t.yes) (m.rank t.no)
      rw [next, Option.getD_some] at hraise
      obtain ⟨hheld, hweight, _⟩ := raise_held h ht (m.rank t.cond) (m.rank t.yes) (m.rank t.no)
      rw [hraise] at hheld hweight
      obtain ⟨hy, hn, hone⟩ := swap?_spec h ht hc next
      obtain ⟨hanswer, habsorb, hstandard, hswap⟩ := standing_of_rank_lt h hheld hy hn hone
      obtain ⟨hrep, hrep'⟩ := standard?_eq_none_iff.mp standing
      obtain ⟨hrepu, hrepu'⟩ := standard?_eq_none_iff.mp hstandard
      have habsorb' := absorb_of_not_repeats hrep hrep'
      refine ⟨hheld, hweight.le, ?_, ?_, ?_⟩
      · rw [retries, hswap, repeats, if_neg hrepu, if_neg hrepu', retries, next, repeats,
          if_neg hrep, if_neg hrep']
        exact Nat.zero_lt_one
      · rw [quick?_eq_answer, quick?_eq_answer, habsorb, habsorb', hanswer, asked]
      · rw [normal, normal, habsorb, habsorb', hraise, raise_eq_swap, hswap, Option.getD_none]

omit ht in
/-- **There are at most as many retries in a row as can still be.** -/
theorem length_retries_le : ∀ {us : List Triple} {t : Triple}, t.Held m →
    (t :: us).IsChain (Retry m) → us.length ≤ t.retries m
  | [], _, _, _ => Nat.zero_le _
  | u :: us, t, ht, hchain => by
      obtain ⟨hr, hrest⟩ := List.isChain_cons_cons.mp hchain
      obtain ⟨hheld, _, hlt, _⟩ := retry_spec h ht hr
      have hle := length_retries_le hheld hrest
      rw [List.length_cons]
      omega

end Retries

end Triple

namespace Manager

/-! ## 3. If-then-else by calls -/

/-- The edge that decides on `v` between two edges, which have to stand below `v`. -/
def mkNodeBelow (v : Nat) (low high : Edge) : Op Edge := do
  let level ← ask (·.order.levelOf v)
  let levelLow ← ask (·.level low)
  let levelHigh ← ask (·.level high)
  if levelLow ≤ level ∨ levelHigh ≤ level then
    throw .assertion
  mkNode v low high

/-- If-then-else where every rule is a call. The first number bounds how many calls are nested. -/
def chooseByCalls : Nat → Triple → Op Edge
  | 0, _ => throw .endless
  | calls + 1, t => do
    if let some answer := t.settled? then
      return answer
    let flipped ← ask (·.complement t.cond)
    if t.isComplement then
      return flipped
    if let some next := t.standard? then
      return ← chooseByCalls calls next
    let i ← ask (·.level t.cond)
    let j ← ask (·.level t.yes)
    let k ← ask (·.level t.no)
    if let some next := t.swap? i j k then
      return ← chooseByCalls calls next
    let (u, flip) := t.regular
    let key := OpKey.choose u.cond u.yes u.no
    if let some known ← lookUp key then
      return known.complementIf flip
    let top := min i (min j k)
    if (← get).numVars ≤ top then
      -- No variable stands at the level of the leaves.
      throw .assertion
    let v ← ask (·.order.varAt top)
    let (f₀, f₁) ← ask (·.cofactors u.cond v)
    let (g₀, g₁) ← ask (·.cofactors u.yes v)
    let (h₀, h₁) ← ask (·.cofactors u.no v)
    let low ← chooseByCalls calls ⟨f₀, g₀, h₀⟩
    let high ← chooseByCalls calls ⟨f₁, g₁, h₁⟩
    let result ← mkNodeBelow v low high
    remember key result
    return result.complementIf flip

/-- Both sides of a triple one level down, and the decision between them. -/
def splitByCalls (calls v : Nat) (lower upper : Triple) : Op Edge := do
  let low ← chooseByCalls calls lower
  let high ← chooseByCalls calls upper
  mkNodeBelow v low high

section Calls

variable {m : Manager} (h : m.WellFormed) {t : Triple} (ht : t.Held m)

include ht

theorem chooseByCalls_answer {r : Edge} (hr : t.answer? = some r) (calls : Nat) :
    chooseByCalls (calls + 1) t m = .ok r m := by
  unfold Triple.answer? at hr
  unfold chooseByCalls
  cases hs : t.settled? with
  | some a =>
      rw [hs] at hr
      obtain rfl := Option.some.inj hr
      rfl
  | none =>
      rw [hs] at hr
      show (ask (·.complement t.cond) >>= _) m = _
      rw [ask_bind (complement_eq ht.cond)]
      by_cases hc : t.isComplement = true
      · rw [if_pos hc] at hr ⊢
        obtain rfl := Option.some.inj hr
        rfl
      · rw [if_neg hc] at hr
        cases hr

include h

/-- A retry does nothing but to call. -/
theorem chooseByCalls_retry {u : Triple} (hr : Retry m t u) (calls : Nat) :
    chooseByCalls (calls + 1) t m = chooseByCalls calls u m := by
  rw [chooseByCalls]
  cases hr with
  | standard asked next =>
      obtain ⟨hs, hc, _⟩ := Triple.not_terminal_of_answer asked
      rw [hs]
      show (ask (·.complement t.cond) >>= _) m = _
      rw [ask_bind (complement_eq ht.cond), if_neg (by rw [hc]; decide), next]
  | swap asked standing next =>
      obtain ⟨hs, hc, _⟩ := Triple.not_terminal_of_answer asked
      rw [hs]
      show (ask (·.complement t.cond) >>= _) m = _
      rw [ask_bind (complement_eq ht.cond), if_neg (by rw [hc]; decide), standing]
      show (ask (·.level t.cond) >>= _) m = _
      rw [ask_bind (h.level_eq ht.cond), ask_bind (h.level_eq ht.yes), ask_bind (h.level_eq ht.no),
        next]

/-- **Any other triple is looked up, or split at its topmost variable.** -/
theorem chooseByCalls_split (hanswer : t.answer? = none) (hstandard : t.standard? = none)
    (hswap : t.swap? (m.rank t.cond) (m.rank t.yes) (m.rank t.no) = none) {v : Nat}
    (hv : m.order.Allocated v) (htop : m.order.levelAt v = t.top m) (calls : Nat) :
    chooseByCalls (calls + 1) t m =
      memo (.choose t.regular.1.cond t.regular.1.yes t.regular.1.no) t.regular.2
        (splitByCalls calls v (m.lowTriple t.regular.1 v) (m.highTriple t.regular.1 v)) m := by
  obtain ⟨hs, hc, _⟩ := Triple.not_terminal_of_answer hanswer
  obtain ⟨hregular, _, htop'⟩ := Triple.regular_held ht
  have hvar : m.order.varAt (t.top m) = .ok v := by
    rw [Order.varAt, ← htop, h.order.var?_levelAt hv]
  have hbelow : ¬ m.numVars ≤ t.top m := Nat.not_le.mpr (htop ▸ h.order.levelAt_lt hv)
  rw [chooseByCalls, hs]
  show (ask (·.complement t.cond) >>= _) m = _
  rw [ask_bind (complement_eq ht.cond), if_neg (by rw [hc]; decide), hstandard]
  show (ask (·.level t.cond) >>= _) m = _
  rw [ask_bind (h.level_eq ht.cond), ask_bind (h.level_eq ht.yes), ask_bind (h.level_eq ht.no),
    hswap]
  refine lookUp_bind_congr fun found cache => ?_
  cases found with
  | some known => rfl
  | none =>
      rw [← htop', Triple.top] at htop
      have hcond := h.cofactors_eq hregular.cond hv (by omega)
      have hyes := h.cofactors_eq hregular.yes hv (by omega)
      have hno := h.cofactors_eq hregular.no hv (by omega)
      show (if m.numVars ≤ t.top m then (_ : Op Edge) else _) _ = _
      rw [if_neg hbelow]
      refine (ask_bind hvar).trans ((ask_bind hcond).trans ((ask_bind hyes).trans
        ((ask_bind hno).trans ?_)))
      rw [splitByCalls]
      simp only [bind_assoc]
      rfl

end Calls

/-! ## 4. Both come to the same -/

/-- Where both edges stand below the variable, nothing is missed. -/
theorem mkNodeBelow_eq {m : Manager} (h : m.WellFormed) {v : Nat} {low high : Edge}
    (hv : m.order.Allocated v) (hl : m.Holds low) (hh : m.Holds high)
    (below : m.order.levelAt v < m.rank low) (below' : m.order.levelAt v < m.rank high) :
    mkNodeBelow v low high m = mkNode v low high m := by
  rw [mkNodeBelow, ask_bind (h.order.levelOf_eq hv), ask_bind (h.level_eq hl),
    ask_bind (h.level_eq hh), if_neg (by omega)]

section Agreement

variable {m : Manager} (h : m.WellFormed) {t : Triple} (ht : t.Held m)

include h ht

/-- Triples with the same answer and the same normal form are worked out alike. -/
theorem iteWithin_congr {u : Triple} (hu : u.Held m) (hquick : u.quick? = t.quick?)
    (hnormal : m.normal u = m.normal t) (depth : Nat) :
    iteWithin (depth + 1) u.cond u.yes u.no m = iteWithin (depth + 1) t.cond t.yes t.no m := by
  cases hs : t.quick? with
  | some r =>
      rw [iteWithin_settled ht hs, iteWithin_settled hu (hquick.trans hs)]
  | none =>
      obtain ⟨v, hv, hlevel, hrun⟩ := iteWithin_normal h ht hs depth
      obtain ⟨w, hw, hlevel', hrun'⟩ := iteWithin_normal h hu (hquick.trans hs) depth
      rw [hnormal] at hlevel' hrun'
      rw [hrun, hrun', h.order.levelAt_inj hw hv (hlevel'.trans hlevel.symm)]

/-- **Both sides are worked out alike, and the node gets its children below it.** -/
theorem splitByCalls_eq {calls depth : Nat}
    (ih : ∀ {m : Manager} {t : Triple}, m.WellFormed → t.Held m → t.cost m < calls →
      t.weight < depth → chooseByCalls calls t m = iteWithin depth t.cond t.yes t.no m)
    (hcalls : 4 * t.weight ≤ calls) (hdepth : t.weight ≤ depth) {v : Nat}
    (hv : m.order.Allocated v) (htop : m.order.levelAt v = t.top m) {m' : Manager}
    (n : m.Next m') : splitByCalls calls v (m.lowTriple t v) (m.highTriple t v) m' =
      splitWithin depth v (m.lowTriple t v) (m.highTriple t v) m' := by
  have hlow := held_lowTriple h ht hv
  have hhigh := held_highTriple h ht hv
  obtain ⟨hw₀, hw₁⟩ := weight_lowTriple_lt h ht hv htop
  have hless := hw₀.trans_le hdepth
  have hless' := hw₁.trans_le hdepth
  have hcost : ∀ {u : Triple}, u.weight < t.weight → ∀ m', u.cost m' < calls := fun {u} hu m' => by
    have hretries := u.retries_le m'
    rw [Triple.cost]
    omega
  refine (makes_iteWithin depth n.1 (n.held hlow) hless).bind_eq
    (ih n.1 (n.held hlow) (hcost hw₀ _) hless) fun low m₁ n₁ hr₁ hval₁ => ?_
  have n' := n.trans n₁
  refine (makes_iteWithin depth n'.1 (n'.held hhigh) hless').bind_eq
    (ih n'.1 (n'.held hhigh) (hcost hw₁ _) hless') fun high m₂ n₂ hr₂ hval₂ => ?_
  obtain ⟨hv₂, below, below'⟩ := (n'.trans n₂).fit_split h ht hv htop (n₂.holds hr₁) hr₂
    (fun ρ => (n₂.eval_eq n₁.1 hr₁ ρ).trans ((hval₁ ρ).trans (n.value_eq h hlow ρ)))
    fun ρ => (hval₂ ρ).trans (n'.value_eq h hhigh ρ)
  exact mkNodeBelow_eq n₂.1 hv₂ (n₂.holds hr₁) hr₂ below below'

end Agreement

/-- **If-then-else by calls comes to the same**, with as many nested calls as its cost allows. -/
theorem chooseByCalls_eq : ∀ (calls depth : Nat) {m : Manager} {t : Triple}, m.WellFormed →
    t.Held m → t.cost m < calls → t.weight < depth →
    chooseByCalls calls t m = iteWithin depth t.cond t.yes t.no m := by
  intro calls
  induction calls with
  | zero => exact fun _ _ _ _ _ hlt => absurd hlt (Nat.not_lt_zero _)
  | succ calls ih =>
      intro depth m t h ht hcalls hdepth
      obtain ⟨depth, rfl⟩ := Nat.exists_eq_add_one_of_ne_zero (Nat.ne_zero_of_lt hdepth)
      cases hanswer : t.answer? with
      | some r =>
          have hquick := Triple.quick?_eq_answer.trans (Triple.answer?_absorb hanswer)
          rw [chooseByCalls_answer ht hanswer, iteWithin_settled ht hquick]
      | none =>
      have retry : ∀ {u : Triple}, Retry m t u →
          chooseByCalls (calls + 1) t m = iteWithin (depth + 1) t.cond t.yes t.no m := fun hr => by
        obtain ⟨hheld, hle, hlt, hquick, hnormal⟩ := Triple.retry_spec h.toFounded ht hr
        rw [Triple.cost] at hcalls
        rw [chooseByCalls_retry h ht hr, ih (depth + 1) h hheld (by rw [Triple.cost]; omega)
          (by omega), iteWithin_congr h ht hheld hquick hnormal]
      cases hstandard : t.standard? with
      | some u => exact retry (.standard hanswer hstandard)
      | none =>
      cases hswap : t.swap? (m.rank t.cond) (m.rank t.yes) (m.rank t.no) with
      | some u => exact retry (.swap hanswer hstandard hswap)
      | none =>
      -- nothing to absorb and nothing to swap: only complements keep it from its normal form
      obtain ⟨hyes, hno⟩ := Triple.standard?_eq_none_iff.mp hstandard
      have habsorb := Triple.absorb_of_not_repeats hyes hno
      have hquick : t.quick? = none := by rw [Triple.quick?_eq_answer, habsorb, hanswer]
      have hnormal : m.normal t = t.regular := by
        rw [normal, habsorb, Triple.raise_eq_swap, hswap, Option.getD_none]
      obtain ⟨hregular, hweight, htop⟩ := Triple.regular_held ht
      obtain ⟨v, hv, hlevel, hrun⟩ := iteWithin_normal h ht hquick depth
      rw [hnormal] at hlevel hrun
      rw [Triple.cost] at hcalls
      rw [hrun, chooseByCalls_split h ht hanswer hstandard hswap hv (hlevel.trans htop)]
      exact memo_congr h fun m' n => splitByCalls_eq h hregular (fun h' => ih depth h')
        (by omega) (by omega) hv hlevel n

end Manager

end Factbase.Diagram
