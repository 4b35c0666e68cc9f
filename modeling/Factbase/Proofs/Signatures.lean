import Factbase.Proofs.Outcome
import Factbase.Proofs.Text.Bytes
import Factbase.Signature
import Mathlib.Data.List.Perm.Subperm

/-!
# Signatures that are created

* `WellNamed`: a kind and a numeral, which is a word of ASCII letters and digits;
* `Signature.Proper`: the names are different and well-formed, and the groups have every slot once;
* `create_eq_ok_iff`: what is created, and from what;
* `Created.proper`: **every signature that is created is proper**, for any names and any order;
* `rearranged`: what belongs to the slots of a signature, in the order of another one with the same
  names.
-/

namespace Factbase

open Text

/-! ## 1. Names -/

/-- A kind and a numeral. -/
def WellNamed (name : String) : Prop := (splitName? name.toList).isSome

/-- A well-formed name is not empty and has ASCII letters and digits only. -/
theorem WellNamed.solid {name : String} (h : WellNamed name) :
    name.toList ≠ [] ∧ ∀ c ∈ name.toList, c.isAlphanum = true := by
  rw [WellNamed, splitName?] at h
  split at h
  · cases h
  · rename_i hno
    simp only [Bool.or_eq_true, not_or, Bool.not_eq_true, Bool.not_eq_false',
      List.isEmpty_eq_false_iff, List.all_eq_true] at hno
    obtain ⟨⟨hkind, _⟩, hdigits⟩ := hno
    refine ⟨fun hnil => hkind (by rw [hnil]; rfl), fun c hc => ?_⟩
    rw [← List.takeWhile_append_dropWhile (p := isLetter) (l := name.toList)] at hc
    rw [Char.isAlphanum, Bool.or_eq_true]
    rcases List.mem_append.mp hc with hc | hc
    · exact Or.inl (List.all_eq_true.mp List.all_takeWhile c hc)
    · exact Or.inr (hdigits c hc)

theorem bounds_of_isAlphanum {c : Char} (h : c.isAlphanum = true) :
    48 ≤ c.toNat ∧ c.toNat ≤ 122 ∧ c.toNat ≠ 58 := by
  delta Char.isAlphanum Char.isAlpha Char.isUpper Char.isLower Char.isDigit at h
  simp only [Bool.or_eq_true, Bool.and_eq_true, decide_eq_true_eq, ge_iff_le,
    UInt32.le_iff_toNat_le] at h
  change ((65 ≤ c.toNat ∧ c.toNat ≤ 90) ∨ (97 ≤ c.toNat ∧ c.toNat ≤ 122)) ∨
    (48 ≤ c.toNat ∧ c.toNat ≤ 57) at h
  omega

section Names

variable {name : String} (h : WellNamed name)

include h

theorem WellNamed.word : Word name.toList := by
  refine ⟨h.solid.1, fun c hc => ?_⟩
  have hbounds := bounds_of_isAlphanum (h.solid.2 c hc)
  simp only [isBlank, Bool.or_eq_false_iff, Bool.and_eq_false_iff, decide_eq_false_iff_not]
  omega

theorem WellNamed.ascii : Ascii name.toList := fun c hc => by
  have hbounds := bounds_of_isAlphanum (h.solid.2 c hc)
  omega

theorem WellNamed.no_colon : ':' ∉ name.toList := fun hc =>
  (bounds_of_isAlphanum (h.solid.2 ':' hc)).2.2 rfl

end Names

namespace Signature

/-- The names are well-formed and differ from each other, and every slot stands in the groups
once. -/
structure Proper (s : Signature) : Prop where
  nodup : s.names.Nodup
  wellNamed : ∀ name ∈ s.names, WellNamed name
  groups : s.groups.flatten.Perm (List.range s.arity)

/-- One more name is new, and so are those behind it. -/
theorem nodup_fresh_cons {name : String} {names seen : List String} :
    (name :: names).Nodup ∧ (∀ other ∈ name :: names, other ∉ seen) ↔
      name ∉ seen ∧ names.Nodup ∧ ∀ other ∈ names, other ∉ name :: seen := by
  rw [List.nodup_cons, List.forall_mem_cons]
  constructor
  · rintro ⟨⟨hname, hnodup⟩, hseen, hfresh⟩
    exact ⟨hseen, hnodup, fun other hmem => List.not_mem_cons_of_ne_of_not_mem
      (fun e => hname (e ▸ hmem)) (hfresh other hmem)⟩
  · rintro ⟨hseen, hnodup, hfresh⟩
    exact ⟨⟨fun hmem => hfresh name hmem List.mem_cons_self, hnodup⟩, hseen,
      fun other hmem => List.not_mem_of_not_mem_cons (hfresh other hmem)⟩

/-- Names pass exactly where they are well-formed and new. -/
theorem checkNames_eq_ok_iff : ∀ {names seen : List String}, checkNames seen names = .ok () ↔
    (∀ name ∈ names, WellNamed name) ∧ names.Nodup ∧ ∀ name ∈ names, name ∉ seen
  | [], _ => by simp [checkNames]
  | name :: names, seen => by
      have hform : (splitName? name.toList).isNone = true ↔ ¬ WellNamed name := by
        rw [WellNamed, Option.isSome_iff_ne_none, not_not, Option.isNone_iff_eq_none]
      rw [checkNames, nodup_fresh_cons, List.forall_mem_cons]
      by_cases hname : WellNamed name
      · rw [if_neg (hform.not.mpr (not_not.mpr hname))]
        by_cases hseen : name ∈ seen
        · rw [if_pos (List.contains_iff_mem.mpr hseen)]
          exact ⟨fun h => (by cases h), fun h => absurd hseen h.2.1⟩
        · rw [if_neg (List.contains_iff_mem.not.mpr hseen), checkNames_eq_ok_iff]
          exact ⟨fun ⟨hwell, hnew⟩ => ⟨⟨hname, hwell⟩, hseen, hnew⟩,
            fun ⟨hwell, hnew⟩ => ⟨hwell.2, hnew.2⟩⟩
      · rw [if_pos (hform.mpr hname)]
        exact ⟨fun h => (by cases h), fun h => absurd h.1.1 hname⟩

/-! ## 2. Groups -/

/-- Nothing repeats exactly where all is new. -/
theorem firstRepeat?_eq_none_iff : ∀ {names seen : List String}, firstRepeat? seen names = none ↔
    names.Nodup ∧ ∀ name ∈ names, name ∉ seen
  | [], _ => by simp [firstRepeat?]
  | name :: names, seen => by
      rw [firstRepeat?, nodup_fresh_cons]
      by_cases hseen : name ∈ seen
      · rw [if_pos (List.contains_iff_mem.mpr hseen)]
        exact ⟨fun h => (by cases h), fun h => absurd hseen h.1⟩
      · rw [if_neg (List.contains_iff_mem.not.mpr hseen), firstRepeat?_eq_none_iff]
        exact ⟨fun hnew => ⟨hseen, hnew⟩, fun h => h.2⟩

/-- **An order is accepted exactly where it can be read and lists the names**, and its groups are
those of the places of the names. -/
theorem groupsOf_eq_ok_iff {names : List String} (hnodup : names.Nodup) {order : String}
    {slots : List (List Nat)} : groupsOf names order = .ok slots ↔ ∃ groups,
      SlotOrder.read order = .ok groups ∧ groups.flatten.Perm names ∧
      groups.map (fun group => group.map (names.idxOf ·)) = slots := by
  rw [groupsOf]
  cases SlotOrder.read order with
  | error problem => exact ⟨fun h => (by cases h), fun ⟨_, h, _⟩ => (by cases h)⟩
  | ok groups =>
      have honly : (∃ named, Except.ok (ε := OrderProblem) groups = .ok named ∧
          named.flatten.Perm names ∧
          named.map (fun group => group.map (names.idxOf ·)) = slots) ↔
          groups.flatten.Perm names ∧
          groups.map (fun group => group.map (names.idxOf ·)) = slots :=
        ⟨fun ⟨_, h, hrest⟩ => Except.ok.inj h ▸ hrest, fun h => ⟨groups, rfl, h⟩⟩
      rw [honly]
      dsimp only
      split
      · rename_i hrepeat
        refine ⟨fun h => (by cases h), fun ⟨hperm, _⟩ => ?_⟩
        rw [firstRepeat?_eq_none_iff.mpr
          ⟨hperm.nodup_iff.mpr hnodup, fun _ _ => List.not_mem_nil⟩] at hrepeat
        cases hrepeat
      · rename_i hrepeat
        have hmatch := List.perm_ext_iff_of_nodup (firstRepeat?_eq_none_iff.mp hrepeat).1 hnodup
        split
        · rename_i hsame
          simp only [Bool.and_eq_true, List.isEmpty_iff, List.filter_eq_nil_iff, Bool.not_eq_true',
            Bool.not_eq_false, List.contains_iff_mem] at hsame
          have hperm := hmatch.mpr fun name => ⟨hsame.2 name, hsame.1 name⟩
          exact ⟨fun h => ⟨hperm, Except.ok.inj h⟩, fun h => congrArg Except.ok h.2⟩
        · rename_i hdiffer
          refine ⟨fun h => (by cases h), fun ⟨hperm, _⟩ => absurd ?_ hdiffer⟩
          simp only [Bool.and_eq_true, List.isEmpty_iff, List.filter_eq_nil_iff, Bool.not_eq_true',
            Bool.not_eq_false, List.contains_iff_mem]
          exact ⟨fun name => (hmatch.mp hperm name).mpr, fun name => (hmatch.mp hperm name).mp⟩

/-- The places of different names are all places. -/
theorem map_idxOf {names : List String} (h : names.Nodup) :
    names.map (names.idxOf ·) = List.range names.length := by
  refine List.ext_getElem (by simp) fun i hi hi' => ?_
  rw [List.length_map] at hi
  rw [List.getElem_map, List.getElem_range, h.idxOf_getElem i hi]

/-- **An order that is accepted has every slot once.** -/
theorem perm_of_groupsOf {names : List String} (hnodup : names.Nodup) {order : String}
    {groups : List (List Nat)} (h : groupsOf names order = .ok groups) :
    groups.flatten.Perm (List.range names.length) := by
  obtain ⟨named, _, hperm, rfl⟩ := (groupsOf_eq_ok_iff hnodup).mp h
  rw [← List.map_flatten, ← map_idxOf hnodup]
  exact hperm.map _

/-- The signature is one that is created. -/
def Created (s : Signature) : Prop := ∃ names order, create names order = .ok s

/-- **What is created**: well-formed names that differ, each in a group of its own where there is
no order. -/
theorem create_eq_ok_iff {names : List String} {order : Option String} {s : Signature} :
    create names order = .ok s ↔ names ≠ [] ∧ (∀ name ∈ names, WellNamed name) ∧ names.Nodup ∧
      s.names = names ∧ s.order = order ∧
      (order = none → s.groups = (List.range names.length).map fun slot => [slot]) ∧
      ∀ text, order = some text → groupsOf names text = .ok s.groups := by
  constructor
  · intro h
    rw [create] at h
    obtain ⟨hempty, h⟩ := ok_of_unless h
    obtain ⟨_, hnames, h⟩ := ok_of_bind h
    obtain ⟨hwell, hnodup, _⟩ := checkNames_eq_ok_iff.mp hnames
    have hne : names ≠ [] := fun hnil => hempty (List.isEmpty_iff.mpr hnil)
    dsimp only at h
    cases order with
    | none =>
        obtain rfl := Except.ok.inj h
        exact ⟨hne, hwell, hnodup, rfl, rfl, fun _ => rfl, fun _ hnone => (by cases hnone)⟩
    | some order =>
        obtain ⟨groups, hgroups, h⟩ := ok_of_bind h
        obtain rfl := Except.ok.inj h
        exact ⟨hne, hwell, hnodup, rfl, rfl, fun hsome => (by cases hsome),
          fun text htext => Option.some.inj htext ▸ hgroups⟩
  · rintro ⟨hne, hwell, hnodup, rfl, rfl, hsingles, hgroups⟩
    have hnames := checkNames_eq_ok_iff.mpr ⟨hwell, hnodup, fun _ _ => List.not_mem_nil⟩
    refine unless_eq_ok (fun hempty => hne (List.isEmpty_iff.mp hempty)) (bind_eq_ok hnames ?_)
    obtain ⟨names, order, groups⟩ := s
    cases order with
    | none => rw [← hsingles rfl]; rfl
    | some order => exact bind_eq_ok (hgroups order rfl) rfl

/-- **Every signature that is created is proper.** -/
theorem Created.proper {s : Signature} (h : s.Created) : s.Proper := by
  obtain ⟨names, order, h⟩ := h
  obtain ⟨_, hwell, hnodup, rfl, rfl, hsingles, hgroups⟩ := create_eq_ok_iff.mp h
  refine ⟨hnodup, hwell, ?_⟩
  cases hs : s.order with
  | none =>
      rw [hsingles hs, ← List.flatMap_def, List.flatMap_singleton']
      exact .refl _
  | some order => exact perm_of_groupsOf hnodup (hgroups order hs)

/-! ## 3. Slots in another order -/

/-- What belongs to slots with given names, in the order of other names. -/
def rearranged {α : Type} [Inhabited α] (names names' : List String) (xs : List α) : List α :=
  names'.map fun name => xs[names.idxOf name]?.getD default

section Rearranging

variable {α β : Type} [Inhabited α] [Inhabited β] {names names' : List String} {xs ys : List α}

theorem rearranged_map {f : α → β} (hf : f default = default) :
    rearranged names names' (xs.map f) = (rearranged names names' xs).map f := by
  rw [rearranged, rearranged, List.map_map]
  refine List.map_congr_left fun name _ => ?_
  rw [List.getElem?_map, Function.comp_apply]
  cases xs[names.idxOf name]? with
  | none => exact hf.symm
  | some x => rfl

variable (hnodup : names.Nodup) (hperm : names'.Perm names) (hlen : xs.length = names.length)

include hnodup hlen

/-- In the same order nothing changes. -/
theorem rearranged_self : rearranged names names xs = xs := by
  refine List.ext_getElem (by rw [rearranged, List.length_map, hlen]) fun i hi hi' => ?_
  rw [rearranged, List.length_map] at hi
  rw [show (rearranged names names xs)[i] = xs[names.idxOf names[i]]?.getD default from
    List.getElem_map _, hnodup.idxOf_getElem i hi, List.getElem?_eq_getElem hi', Option.getD_some]

include hperm

theorem perm_rearranged : (rearranged names names' xs).Perm xs := by
  have h := hperm.map fun name => xs[names.idxOf name]?.getD default
  rwa [← rearranged, ← rearranged, rearranged_self hnodup hlen] at h

end Rearranging

end Signature

end Factbase
