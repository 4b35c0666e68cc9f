import Factbase.Diagram.Cursor
import Mathlib.Data.List.Nodup

/-!
# Counting in binary

A cursor fills in the free care levels of a profile and counts them through in binary.

* `settings c a`: all settings of the levels of a counter, the first level changing fastest;
* `behind_eq`: **counting up goes through the settings in this order**;
* `Sets c a b`: `b` differs from `a` in the levels of the counter only, which are set;
* `mem_settings_iff`, `nodup_settings`: every such assignment comes exactly once;
* `fixFree_eq`: the counter of a profile and its first setting.
-/

namespace Factbase.Diagram.Cursor

/-- Every assignment with both settings of a level. -/
def both (l : Nat) (as : List (Array Bit)) : List (Array Bit) :=
  as.flatMap fun a => [a.setIfInBounds l .zero, a.setIfInBounds l .one]

/-- All settings of the levels of a counter, the first level changing fastest. -/
def settings : List Nat → Array Bit → List (Array Bit)
  | [], a => [a]
  | l :: c, a => both l (settings c a)

/-- The settings behind the present one. -/
def behind : List Nat → Array Bit → List (Array Bit)
  | [], _ => []
  | l :: c, a =>
      (if a[l]? = some .zero then [a.setIfInBounds l .one] else []) ++ both l (behind c a)

/-! ## 1. Counting up -/

/-- The level that gets both settings may have been set before. -/
theorem both_map_set (l : Nat) (x : Bit) (as : List (Array Bit)) :
    both l (as.map (·.setIfInBounds l x)) = both l as := by
  unfold both
  rw [List.flatMap_map]
  simp only [Array.setIfInBounds_setIfInBounds]

theorem mem_both {l : Nat} {as : List (Array Bit)} {b : Array Bit} :
    b ∈ both l as ↔ ∃ a ∈ as, b = a.setIfInBounds l .zero ∨ b = a.setIfInBounds l .one := by
  simp only [both, List.mem_flatMap, List.mem_cons, List.not_mem_nil, or_false]

/-- Setting a level that a counter does not have. -/
theorem behind_set {l : Nat} {x : Bit} : ∀ {c : List Nat} {a : Array Bit}, l ∉ c →
    behind c (a.setIfInBounds l x) = (behind c a).map (·.setIfInBounds l x)
  | [], _, _ => rfl
  | k :: c, a, hl => by
      obtain ⟨hne, hl⟩ := not_or.mp (mt List.mem_cons.mpr hl)
      have hcomm : ∀ (b : Array Bit) (y : Bit), (b.setIfInBounds l x).setIfInBounds k y =
          (b.setIfInBounds k y).setIfInBounds l x := fun b y => Array.setIfInBounds_comm _ _ hne
      rw [behind, behind, behind_set hl, List.map_append, both, both, List.map_flatMap,
        List.flatMap_map, Array.getElem?_setIfInBounds_ne hne]
      simp only [hcomm, List.map_cons, List.map_nil]
      split <;> rfl

theorem size_of_mem_behind : ∀ {c : List Nat} {a b : Array Bit}, b ∈ behind c a → b.size = a.size
  | l :: c, a, b, h => by
      rw [behind] at h
      rcases List.mem_append.mp h with h | h
      · split at h
        · rw [List.mem_singleton.mp h, Array.size_setIfInBounds]
        · cases h
      · obtain ⟨b', hb', rfl | rfl⟩ := mem_both.mp h <;>
          rw [Array.size_setIfInBounds, size_of_mem_behind hb']

/-- **Counting up goes to the next setting, or there is none.** -/
theorem behind_eq : ∀ {c : List Nat} {a : Array Bit}, c.Nodup → (∀ l ∈ c, l < a.size) →
    behind c a =
      if (increment c a).1 then (increment c a).2 :: behind c (increment c a).2 else []
  | [], _, _, _ => rfl
  | l :: c, a, hnodup, hin => by
      obtain ⟨hl, hnodup⟩ := List.nodup_cons.mp hnodup
      obtain ⟨hlt, hin⟩ := List.forall_mem_cons.mp hin
      rw [increment]
      by_cases hzero : a[l]? = some .zero
      · have hone : (a.setIfInBounds l .one)[l]? ≠ some Bit.zero := by
          rw [Array.getElem?_setIfInBounds_self_of_lt hlt]
          decide
        rw [if_pos hzero]
        show _ = a.setIfInBounds l .one :: behind (l :: c) (a.setIfInBounds l .one)
        rw [behind, behind, if_pos hzero, if_neg hone, behind_set hl, both_map_set]
        rfl
      · -- the level goes back to zero, and the others count up
        have ih := behind_eq (a := a.setIfInBounds l .zero) hnodup
          fun k hk => by rw [Array.size_setIfInBounds]; exact hin k hk
        rw [behind_set hl] at ih
        rw [behind, if_neg hzero, if_neg hzero, List.nil_append]
        split
        · rename_i hmore
          rw [if_pos hmore] at ih
          obtain ⟨b, bs, hb, hfirst, hothers⟩ := List.map_eq_cons_iff.mp ih
          have hlb : l < b.size := by
            rw [size_of_mem_behind (hb ▸ List.mem_cons_self)]
            exact hlt
          rw [← hfirst, behind, hfirst, ← hothers, ← hfirst, both_map_set, hb, if_pos
            (Array.getElem?_setIfInBounds_self_of_lt hlb), Array.setIfInBounds_setIfInBounds]
          rfl
        · rename_i hmore
          rw [if_neg hmore] at ih
          rw [List.map_eq_nil_iff.mp ih]
          rfl

/-- The first setting, where all levels are zero, and those behind it. -/
theorem settings_eq : ∀ {c : List Nat} {a : Array Bit}, (∀ l ∈ c, a[l]? = some .zero) →
    settings c a = a :: behind c a
  | [], _, _ => rfl
  | l :: c, a, h => by
      obtain ⟨hl, h⟩ := List.forall_mem_cons.mp h
      have hsame : a.setIfInBounds l .zero = a := by
        refine Array.ext_getElem? fun k => ?_
        by_cases hk : l = k
        · rw [← hk, hl,
            Array.getElem?_setIfInBounds_self_of_lt (Array.getElem?_eq_some_iff.mp hl).1]
        · exact Array.getElem?_setIfInBounds_ne hk
      rw [settings, settings_eq h, behind, if_pos hl]
      show a.setIfInBounds l .zero :: a.setIfInBounds l .one :: both l (behind c a) = _
      rw [hsame]
      rfl

/-! ## 2. All settings, each once -/

/-- Two assignments that agree outside a level agree where that level is set. -/
theorem set_eq_of_agree {l : Nat} {x : Bit} {a b : Array Bit} (hsize : b.size = a.size)
    (hx : b[l]? = some x) (agree : ∀ k, k ≠ l → b[k]? = a[k]?) : b = a.setIfInBounds l x := by
  refine Array.ext_getElem? fun k => ?_
  by_cases hk : l = k
  · subst hk
    have hlt := (Array.getElem?_eq_some_iff.mp hx).1
    rw [hx, Array.getElem?_setIfInBounds_self_of_lt (by omega)]
  · rw [Array.getElem?_setIfInBounds_ne hk, agree k (Ne.symm hk)]

/-- The assignment differs from another one in the levels of the counter only, which are set. -/
def Sets (c : List Nat) (a b : Array Bit) : Prop :=
  b.size = a.size ∧ (∀ l ∈ c, b[l]? = some .zero ∨ b[l]? = some .one) ∧ ∀ l, l ∉ c → b[l]? = a[l]?

theorem sets_nil {a b : Array Bit} : Sets [] a b ↔ b = a :=
  ⟨fun ⟨_, _, agree⟩ => Array.ext_getElem? fun l => agree l List.not_mem_nil,
    fun heq => heq ▸ ⟨rfl, fun _ h => absurd h List.not_mem_nil, fun _ _ => rfl⟩⟩

/-- Setting one more level. -/
theorem Sets.set {c : List Nat} {a b : Array Bit} (h : Sets c a b) {l : Nat} (hlt : l < a.size)
    {x : Bit} (hx : x = .zero ∨ x = .one) : Sets (l :: c) a (b.setIfInBounds l x) := by
  obtain ⟨hsize, hbits, agree⟩ := h
  have hself : (b.setIfInBounds l x)[l]? = some x :=
    Array.getElem?_setIfInBounds_self_of_lt (by omega)
  refine ⟨by rw [Array.size_setIfInBounds, hsize], fun k hk => ?_, fun k hk => ?_⟩
  · by_cases hkl : l = k
    · rw [← hkl, hself]
      exact hx.imp (congrArg some) (congrArg some)
    · rw [Array.getElem?_setIfInBounds_ne hkl]
      exact hbits k ((List.mem_cons.mp hk).resolve_left (Ne.symm hkl))
  · obtain ⟨hne, hk⟩ := not_or.mp (mt List.mem_cons.mpr hk)
    rw [Array.getElem?_setIfInBounds_ne (Ne.symm hne), agree k hk]

/-- Before one level is set there is an assignment that sets the others. -/
theorem Sets.exists_tail {c : List Nat} {a b : Array Bit} {l : Nat} (h : Sets (l :: c) a b)
    (hlt : l < a.size) : ∃ b', Sets c a b' ∧ b'.size = b.size ∧ ∀ k, k ≠ l → b[k]? = b'[k]? := by
  obtain ⟨hsize, hbits, agree⟩ := h
  have hbits := (List.forall_mem_cons.mp hbits).2
  by_cases hl : l ∈ c
  · refine ⟨b, ⟨hsize, hbits, fun k hk => ?_⟩, rfl, fun _ _ => rfl⟩
    exact agree k (mt List.mem_cons.mp (not_or.mpr ⟨fun e => hk (e ▸ hl), hk⟩))
  · have hoff : ∀ k, k ≠ l → (b.setIfInBounds l a[l])[k]? = b[k]? := fun k hk =>
      Array.getElem?_setIfInBounds_ne (Ne.symm hk)
    refine ⟨b.setIfInBounds l a[l], ⟨?_, fun k hk => ?_, fun k hk => ?_⟩,
      Array.size_setIfInBounds, fun k hk => (hoff k hk).symm⟩
    · rw [Array.size_setIfInBounds, hsize]
    · rw [hoff k (ne_of_mem_of_not_mem hk hl)]
      exact hbits k hk
    · by_cases hkl : k = l
      · rw [hkl, Array.getElem?_setIfInBounds_self_of_lt (by omega), Array.getElem?_eq_getElem hlt]
      · rw [hoff k hkl, agree k (mt List.mem_cons.mp (not_or.mpr ⟨hkl, hk⟩))]

/-- **The settings of a counter are the assignments that differ in its levels only.** -/
theorem mem_settings_iff : ∀ {c : List Nat} {a b : Array Bit}, (∀ l ∈ c, l < a.size) →
    (b ∈ settings c a ↔ Sets c a b)
  | [], a, b, _ => by rw [settings, List.mem_singleton, sets_nil]
  | l :: c, a, b, hin => by
      obtain ⟨hlt, hin⟩ := List.forall_mem_cons.mp hin
      rw [settings, mem_both]
      constructor
      · rintro ⟨b', hb', hb⟩
        have hb' := (mem_settings_iff hin).mp hb'
        rcases hb with rfl | rfl
        · exact hb'.set hlt (Or.inl rfl)
        · exact hb'.set hlt (Or.inr rfl)
      · intro hb
        obtain ⟨b', hb', hsize, hoff⟩ := hb.exists_tail hlt
        have hbit := (List.forall_mem_cons.mp hb.2.1).1
        exact ⟨b', (mem_settings_iff hin).mpr hb', hbit.imp (set_eq_of_agree hsize.symm · hoff)
          (set_eq_of_agree hsize.symm · hoff)⟩

/-- **No setting comes twice.** -/
theorem nodup_settings : ∀ {c : List Nat} {a : Array Bit}, c.Nodup → (∀ l ∈ c, l < a.size) →
    (settings c a).Nodup
  | [], a, _, _ => List.nodup_singleton a
  | l :: c, a, hnodup, hin => by
      obtain ⟨hl, hnodup⟩ := List.nodup_cons.mp hnodup
      obtain ⟨hlt, hin⟩ := List.forall_mem_cons.mp hin
      have hat : ∀ b ∈ settings c a, b.size = a.size ∧ b[l]? = a[l]? := fun b hb =>
        ⟨((mem_settings_iff hin).mp hb).1, ((mem_settings_iff hin).mp hb).2.2 l hl⟩
      have hself : ∀ b ∈ settings c a, ∀ x, (b.setIfInBounds l x)[l]? = some x := fun b hb x =>
        Array.getElem?_setIfInBounds_self_of_lt (by rw [(hat b hb).1]; exact hlt)
      rw [settings, both, List.nodup_flatMap]
      refine ⟨fun b hb => ?_, ?_⟩
      · refine List.nodup_cons.mpr ⟨fun hmem => ?_, List.nodup_singleton _⟩
        have hbits := congrArg (·[l]?) (List.mem_singleton.mp hmem)
        rw [hself b hb, hself b hb] at hbits
        cases hbits
      · refine (nodup_settings hnodup hin).pairwise_of_forall_ne fun b hb b' hb' hne => ?_
        refine fun d hd hd' => hne (Array.ext_getElem? fun k => ?_)
        have hoff : ∀ {b : Array Bit}, d ∈ [b.setIfInBounds l Bit.zero, b.setIfInBounds l .one] →
            l ≠ k → d[k]? = b[k]? := fun hd hk => by
          rcases List.mem_cons.mp hd with rfl | hd
          · exact Array.getElem?_setIfInBounds_ne hk
          · rw [List.mem_singleton.mp hd, Array.getElem?_setIfInBounds_ne hk]
        by_cases hk : l = k
        · rw [← hk, (hat b hb).2, (hat b' hb').2]
        · rw [← hoff hd hk, ← hoff hd' hk]

/-! ## 3. The counter of a profile -/

/-- The free ones of the care levels, each where it first occurs. -/
def unset : List Nat → Array Bit → List Nat
  | [], _ => []
  | l :: care, a =>
    if a[l]? = some .free then l :: unset care (a.setIfInBounds l .zero) else unset care a

/-- The assignment with levels set to zero. -/
def zeroed (ls : List Nat) (a : Array Bit) : Array Bit := ls.foldl (·.setIfInBounds · .zero) a

theorem zeroed_spec : ∀ (ls : List Nat) {a : Array Bit}, (∀ l ∈ ls, l < a.size) →
    (zeroed ls a).size = a.size ∧ (∀ l ∈ ls, (zeroed ls a)[l]? = some .zero) ∧
      ∀ l, l ∉ ls → (zeroed ls a)[l]? = a[l]?
  | [], _, _ => ⟨rfl, fun _ h => absurd h List.not_mem_nil, fun _ _ => rfl⟩
  | k :: ls, a, hin => by
      obtain ⟨hk, hin⟩ := List.forall_mem_cons.mp hin
      obtain ⟨hsize, hzero, hoff⟩ := zeroed_spec ls (a := a.setIfInBounds k .zero)
        fun l hl => by rw [Array.size_setIfInBounds]; exact hin l hl
      refine ⟨hsize.trans Array.size_setIfInBounds, List.forall_mem_cons.mpr ⟨?_, hzero⟩,
        fun l hl => ?_⟩
      · by_cases hmem : k ∈ ls
        · exact hzero k hmem
        · exact (hoff k hmem).trans (Array.getElem?_setIfInBounds_self_of_lt hk)
      · obtain ⟨hne, hl⟩ := not_or.mp (mt List.mem_cons.mpr hl)
        exact (hoff l hl).trans (Array.getElem?_setIfInBounds_ne (Ne.symm hne))

theorem mem_unset : ∀ {care : List Nat} {a : Array Bit} {l : Nat},
    l ∈ unset care a ↔ l ∈ care ∧ a[l]? = some .free
  | [], _, _ => by simp [unset]
  | k :: care, a, l => by
      rw [unset]
      by_cases hfree : a[k]? = some .free
      · have hlt := (Array.getElem?_eq_some_iff.mp hfree).1
        rw [if_pos hfree, List.mem_cons, mem_unset, List.mem_cons]
        by_cases hk : l = k
        · rw [hk]
          exact iff_of_true (Or.inl rfl) ⟨Or.inl rfl, hfree⟩
        · rw [Array.getElem?_setIfInBounds_ne (Ne.symm hk)]
          simp only [hk, false_or]
      · rw [if_neg hfree, mem_unset, List.mem_cons]
        refine ⟨fun ⟨hl, hf⟩ => ⟨Or.inr hl, hf⟩, fun ⟨hl, hf⟩ => ⟨hl.resolve_left fun e => ?_, hf⟩⟩
        exact hfree (e ▸ hf)

theorem nodup_unset : ∀ {care : List Nat} {a : Array Bit}, (unset care a).Nodup
  | [], _ => List.nodup_nil
  | k :: care, a => by
      rw [unset]
      split
      · rename_i hfree
        refine List.nodup_cons.mpr ⟨fun hmem => ?_, nodup_unset⟩
        have hbit := (mem_unset.mp hmem).2
        rw [Array.getElem?_setIfInBounds_self_of_lt (Array.getElem?_eq_some_iff.mp hfree).1] at hbit
        cases hbit
      · exact nodup_unset

/-- **The free care levels become the counter**, the last one first, and start at zero. -/
theorem fixFree_eq : ∀ {care : List Nat} {a : Array Bit} (counter : List Nat),
    (∀ l ∈ care, l < a.size) →
    fixFree care a counter = .ok (zeroed (unset care a) a, (unset care a).reverse ++ counter)
  | [], _, _, _ => rfl
  | l :: care, a, counter, hin => by
      obtain ⟨hlt, hin⟩ := List.forall_mem_cons.mp hin
      have hget := Array.getElem?_eq_getElem hlt
      rw [fixFree, unset, hget]
      cases hbit : a[l] with
      | free =>
          rw [if_pos rfl]
          show fixFree care (a.setIfInBounds l .zero) (l :: counter) = _
          rw [fixFree_eq (l :: counter) fun k hk => by
            rw [Array.size_setIfInBounds]; exact hin k hk]
          simp [zeroed]
      | zero => exact fixFree_eq counter hin
      | one => exact fixFree_eq counter hin

/-! ## 4. Filling in a profile -/

/-- All settings of the free care levels of a profile. -/
def fillings (care : List Nat) (P : Array Bit) : List (Array Bit) :=
  settings (unset care P).reverse (zeroed (unset care P) P)

section Fillings

variable {care : List Nat} {P : Array Bit} (hin : ∀ l ∈ care, l < P.size)

include hin

theorem unset_lt : ∀ l ∈ unset care P, l < P.size := fun l hl => hin l (mem_unset.mp hl).1

/-- **The fillings set the free care levels and leave everything else.** -/
theorem mem_fillings_iff {a : Array Bit} : a ∈ fillings care P ↔ a.size = P.size ∧
    (∀ l ∈ care, P[l]? = some .free → a[l]? = some .zero ∨ a[l]? = some .one) ∧
    ∀ l, ¬ (l ∈ care ∧ P[l]? = some .free) → a[l]? = P[l]? := by
  obtain ⟨hsize, _, hoff⟩ := zeroed_spec _ (unset_lt hin)
  rw [fillings, mem_settings_iff fun l hl => by
    rw [hsize]; exact unset_lt hin l (List.mem_reverse.mp hl)]
  simp only [Sets, List.mem_reverse, mem_unset, hsize]
  refine and_congr_right fun _ => and_congr ?_ ?_
  · exact ⟨fun h l hl hfree => h l ⟨hl, hfree⟩, fun h l hl => h l hl.1 hl.2⟩
  · exact forall_congr' fun l => imp_congr_right fun hl => by rw [hoff l (mt mem_unset.mp hl)]

theorem nodup_fillings : (fillings care P).Nodup := by
  obtain ⟨hsize, _, _⟩ := zeroed_spec _ (unset_lt hin)
  refine nodup_settings (List.nodup_reverse.mpr nodup_unset) fun l hl => ?_
  rw [hsize]
  exact unset_lt hin l (List.mem_reverse.mp hl)

end Fillings

end Factbase.Diagram.Cursor
