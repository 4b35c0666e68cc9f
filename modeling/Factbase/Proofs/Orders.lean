import Factbase.Proofs.Signatures

/-!
# Orders and the signatures they make

An order lists names with `x` and `_` between them. A kind may have an `x` in it as well: a name
ends behind its numeral, and only there a separator can stand.

* `IsName`: letters and digits, what `splitName?` takes for a name (`wellNamed_iff`);
* `SlotOrder.Enumerates names cs`: the text `cs` is the names, with a separator between any two;
* `SlotOrder.written groups`: the text of groups;
* `SlotOrder.read_eq_ok_iff`: **an order is read as groups exactly where it is their text**;
* `Signature.create_exact`: **which names and orders make a signature, and which groups.**
-/

namespace Factbase

open Text

/-! ## 1. Names -/

/-- One or more ASCII letters, and behind them one or more ASCII digits. -/
def IsName (cs : List Char) : Prop :=
  ∃ kind numeral : List Char, cs = kind ++ numeral ∧ kind ≠ [] ∧ numeral ≠ [] ∧
    (∀ c ∈ kind, c.isAlpha = true) ∧ ∀ c ∈ numeral, c.isDigit = true

/-- No digit is a letter. -/
theorem not_isLetter_of_isNumeral {c : Char} (h : isNumeral c = true) : isLetter c = false := by
  delta isNumeral Char.isDigit at h
  rw [Bool.and_eq_true, decide_eq_true_eq, decide_eq_true_eq, ge_iff_le, UInt32.le_iff_toNat_le,
    UInt32.le_iff_toNat_le] at h
  change 48 ≤ c.toNat ∧ c.toNat ≤ 57 at h
  by_contra hletter
  rw [Bool.not_eq_false] at hletter
  delta isLetter Char.isAlpha Char.isUpper Char.isLower at hletter
  simp only [Bool.or_eq_true, Bool.and_eq_true, decide_eq_true_eq, ge_iff_le,
    UInt32.le_iff_toNat_le] at hletter
  change (65 ≤ c.toNat ∧ c.toNat ≤ 90) ∨ (97 ≤ c.toNat ∧ c.toNat ≤ 122) at hletter
  omega

/-- Characters of one class end where one of another class follows. -/
theorem span_append {p : Char → Bool} {cs rest : List Char} (hcs : ∀ c ∈ cs, p c = true)
    (hrest : ∀ c ∈ rest.head?, p c = false) :
    (cs ++ rest).takeWhile p = cs ∧ (cs ++ rest).dropWhile p = rest := by
  rw [List.takeWhile_append_of_pos hcs, List.dropWhile_append_of_pos hcs]
  cases rest with
  | nil => exact ⟨List.append_nil cs, rfl⟩
  | cons c rest =>
      have hc : ¬ p c = true := Bool.not_eq_true _ ▸ hrest c rfl
      rw [List.takeWhile_cons_of_neg hc, List.dropWhile_cons_of_neg hc, List.append_nil]
      exact ⟨rfl, rfl⟩

/-- The letters of a name end where its numeral starts. -/
theorem span_kind {kind numeral : List Char} (hkind : ∀ c ∈ kind, c.isAlpha = true)
    (hnumeral : ∀ c ∈ numeral, c.isDigit = true) (hne : numeral ≠ []) (rest : List Char) :
    (kind ++ (numeral ++ rest)).takeWhile isLetter = kind ∧
      (kind ++ (numeral ++ rest)).dropWhile isLetter = numeral ++ rest := by
  refine span_append hkind fun c hc => ?_
  rw [List.head?_append_of_ne_nil _ hne] at hc
  exact not_isLetter_of_isNumeral (hnumeral c (List.mem_of_mem_head? hc))

/-- **A well-formed name is letters and digits.** -/
theorem wellNamed_iff {name : String} : WellNamed name ↔ IsName name.toList := by
  constructor
  · intro h
    rw [WellNamed, splitName?] at h
    split at h
    · cases h
    · rename_i hno
      simp only [Bool.or_eq_true, not_or, Bool.not_eq_true, Bool.not_eq_false',
        List.isEmpty_eq_false_iff, List.all_eq_true] at hno
      exact ⟨_, _, List.takeWhile_append_dropWhile.symm, hno.1.1, hno.1.2,
        List.all_eq_true.mp List.all_takeWhile, hno.2⟩
  · rintro ⟨kind, numeral, hname, hkind, hne, hletters, hdigits⟩
    obtain ⟨htake, hdrop⟩ := span_kind hletters hdigits hne []
    rw [List.append_nil] at htake hdrop
    rw [WellNamed, splitName?, hname, htake, hdrop, if_neg]
    · rfl
    · simp only [Bool.or_eq_true, not_or, Bool.not_eq_true, Bool.not_eq_false',
        List.isEmpty_eq_false_iff, List.all_eq_true]
      exact ⟨⟨hkind, hne⟩, hdigits⟩

namespace SlotOrder

/-! ## 2. Reading names -/

/-- A name is read where no digit follows it. -/
theorem readName_append {name : String} (h : IsName name.toList) {rest : List Char}
    (hrest : ∀ c ∈ rest.head?, c.isDigit = false) :
    readName (name.toList ++ rest) = .ok (name, rest) := by
  obtain ⟨kind, numeral, hname, hkind, hne, hletters, hdigits⟩ := h
  obtain ⟨htake, hdrop⟩ := span_kind hletters hdigits hne rest
  obtain ⟨htake', hdrop'⟩ := span_append (p := isNumeral) hdigits hrest
  rw [readName, hname, List.append_assoc, htake, hdrop, htake', hdrop', ← hname,
    String.ofList_toList]
  split
  · exact absurd rfl hne
  · exact absurd rfl hne
  · rw [if_neg fun hempty => hkind (List.isEmpty_iff.mp hempty)]

/-- What is read as a name is one. -/
theorem of_readName {cs rest : List Char} {name : String} (h : readName cs = .ok (name, rest)) :
    IsName name.toList ∧ cs = name.toList ++ rest := by
  unfold readName at h
  extract_lets letters behind digits after at h
  have hletters : letters ++ behind = cs := List.takeWhile_append_dropWhile
  have hdigits : digits ++ after = behind := List.takeWhile_append_dropWhile
  have hletter : ∀ c ∈ letters, c.isAlpha = true := List.all_eq_true.mp List.all_takeWhile
  have hdigit : ∀ c ∈ digits, c.isDigit = true := List.all_eq_true.mp List.all_takeWhile
  clear_value after digits behind letters
  split at h
  · cases h
  · split at h <;> cases h
  · rename_i hmore hend
    split at h
    · cases h
    · rename_i hempty
      obtain ⟨rfl, rfl⟩ := Prod.mk.inj (Except.ok.inj h)
      rw [String.toList_ofList]
      refine ⟨⟨letters, digits, rfl, fun hnil => hempty (List.isEmpty_iff.mpr hnil), fun hnil => ?_,
        hletter, hdigit⟩, ?_⟩
      · cases hafter : after with
        | nil => exact hend hnil hafter
        | cons c cs => exact hmore c cs hnil hafter
      · rw [List.append_assoc, hdigits, hletters]

/-! ## 3. Reading groups -/

/-- The text of groups: `x` between the names of a group and `_` between groups. -/
def written (groups : List (List String)) : List Char :=
  ['_'].intercalate (groups.map fun group => ['x'].intercalate (group.map String.toList))

section Written

variable (name other : String) (names group : List String) (groups : List (List String))

theorem written_last : written [[name]] = name.toList := by
  simp [written]

theorem written_group : written ([name] :: group :: groups) =
    name.toList ++ '_' :: written (group :: groups) := by
  simp [written]

theorem written_slot : written ((name :: other :: names) :: groups) =
    name.toList ++ 'x' :: written ((other :: names) :: groups) := by
  cases groups with
  | nil => simp [written]
  | cons group groups => simp [written]

/-- A text does not start with an empty group. -/
theorem readName_empty : ∃ problem, readName (written ([] :: groups)) = .error problem := by
  cases groups with
  | nil => exact ⟨_, rfl⟩
  | cons group groups =>
      refine ⟨.unexpected '_', ?_⟩
      rw [show written ([] :: group :: groups) = '_' :: written (group :: groups) by
        simp [written]]
      rfl

end Written

section Steps

variable {name : String} (h : IsName name.toList) (fuel : Nat) (group : List String)
  (cs : List Char)

include h

theorem readGroups_last : readGroups (fuel + 1) group name.toList = .ok [group ++ [name]] := by
  have hread := @readName_append name h [] fun _ hc => by cases hc
  rw [List.append_nil] at hread
  rw [readGroups, hread]
  rfl

theorem readGroups_slot : readGroups (fuel + 1) group (name.toList ++ 'x' :: cs) =
    readGroups fuel (group ++ [name]) cs := by
  rw [readGroups, readName_append h fun c hc => by cases hc; decide]
  rfl

theorem readGroups_group : readGroups (fuel + 1) group (name.toList ++ '_' :: cs) =
    (readGroups fuel [] cs >>= fun groups => pure ((group ++ [name]) :: groups)) := by
  rw [readGroups, readName_append h fun c hc => by cases hc; decide]
  rfl

end Steps

/-- Names by group, at least one in each group and at least one group. -/
def Grouped (groups : List (List String)) : Prop :=
  groups ≠ [] ∧ ∀ group ∈ groups, group ≠ [] ∧ ∀ name ∈ group, IsName name.toList

section Grouped

variable {name other : String} {names group : List String} {groups : List (List String)}

theorem grouped_last : Grouped [[name]] ↔ IsName name.toList := by
  simp [Grouped]

theorem grouped_group : Grouped ([name] :: group :: groups) ↔
    IsName name.toList ∧ Grouped (group :: groups) := by
  simp [Grouped]

theorem grouped_slot : Grouped ((name :: other :: names) :: groups) ↔
    IsName name.toList ∧ Grouped ((other :: names) :: groups) := by
  simp [Grouped, and_assoc]

theorem Grouped.exists_cons {group : List String} (h : Grouped (group :: groups)) :
    ∃ name names, group = name :: names :=
  List.exists_cons_of_ne_nil (h.2 group List.mem_cons_self).1

end Grouped

/-- The text of groups is read as these groups where none is empty, and not at all where one is. -/
theorem readGroups_written : ∀ {fuel : Nat}
    {group names : List String} {groups named : List (List String)},
    (∀ g ∈ names :: groups, ∀ name ∈ g, IsName name.toList) →
    (written (names :: groups)).length < fuel →
    (readGroups fuel group (written (names :: groups)) = .ok named ↔
      (∀ g ∈ names :: groups, g ≠ []) ∧ (group ++ names) :: groups = named)
  | 0, _, _, _, _, _, hfuel => absurd hfuel (Nat.not_lt_zero _)
  | fuel + 1, group, [], groups, named, _, _ => by
      obtain ⟨problem, hread⟩ := readName_empty groups
      rw [readGroups, hread]
      exact ⟨fun h => (by cases h), fun h => absurd rfl (h.1 [] List.mem_cons_self)⟩
  | fuel + 1, group, [name], [], named, hnames, _ => by
      have hname := hnames [name] List.mem_cons_self name List.mem_cons_self
      rw [written_last, readGroups_last hname]
      exact ⟨fun h => ⟨by simp, Except.ok.inj h⟩, fun h => congrArg _ h.2⟩
  | fuel + 1, group, [name], first :: groups, named, hnames, hfuel => by
      obtain ⟨hname, hrest⟩ := List.forall_mem_cons.mp hnames
      rw [written_group, List.length_append, List.length_cons] at hfuel
      rw [written_group, readGroups_group (hname name List.mem_cons_self), List.forall_mem_cons]
      constructor
      · intro h
        obtain ⟨others, hread, h⟩ := ok_of_bind h
        obtain ⟨hfull, rfl⟩ := (readGroups_written hrest (by omega)).mp hread
        exact ⟨⟨List.cons_ne_nil _ _, hfull⟩, Except.ok.inj h⟩
      · rintro ⟨⟨_, hfull⟩, rfl⟩
        exact bind_eq_ok ((readGroups_written hrest (by omega)).mpr ⟨hfull, rfl⟩) rfl
  | fuel + 1, group, name :: other :: names, groups, named, hnames, hfuel => by
      obtain ⟨hgroup, hrest⟩ := List.forall_mem_cons.mp hnames
      obtain ⟨hname, hgroup⟩ := List.forall_mem_cons.mp hgroup
      rw [written_slot, List.length_append, List.length_cons] at hfuel
      rw [written_slot, readGroups_slot hname,
        readGroups_written (List.forall_mem_cons.mpr ⟨hgroup, hrest⟩) (by omega),
        List.forall_mem_cons, List.forall_mem_cons, List.append_assoc]
      simp only [ne_eq, reduceCtorEq, not_false_eq_true, true_and, List.singleton_append]

/-- What is read as groups is their text. -/
theorem of_readGroups : ∀ {fuel : Nat} {group : List String} {cs : List Char}
    {named : List (List String)}, readGroups fuel group cs = .ok named →
    ∃ names groups, named = (group ++ names) :: groups ∧ Grouped (names :: groups) ∧
      cs = written (names :: groups)
  | 0, _, _, _, h => by cases h
  | fuel + 1, group, cs, named, h => by
      rw [readGroups] at h
      obtain ⟨⟨name, rest⟩, hread, hbehind⟩ := ok_of_bind h
      obtain ⟨hname, rfl⟩ := of_readName hread
      dsimp only at hbehind
      split at hbehind
      · obtain rfl := Except.ok.inj hbehind
        exact ⟨[name], [], rfl, grouped_last.mpr hname, by rw [written_last, List.append_nil]⟩
      · obtain ⟨names, groups, rfl, hgrouped, rfl⟩ := of_readGroups hbehind
        obtain ⟨other, names, rfl⟩ := hgrouped.exists_cons
        exact ⟨name :: other :: names, groups, by simp, grouped_slot.mpr ⟨hname, hgrouped⟩,
          (written_slot name other names groups).symm⟩
      · obtain ⟨others, hothers, hbehind⟩ := ok_of_bind hbehind
        obtain rfl := Except.ok.inj hbehind
        obtain ⟨names, groups, rfl, hgrouped, rfl⟩ := of_readGroups hothers
        exact ⟨[name], names :: groups, by simp, grouped_group.mpr ⟨hname, hgrouped⟩,
          (written_group name names groups).symm⟩
      · cases hbehind

/-- **An order is read as groups exactly where it is their text.** -/
theorem read_eq_ok_iff {order : String} {groups : List (List String)} :
    read order = .ok groups ↔ Grouped groups ∧ written groups = order.toList := by
  constructor
  · intro h
    obtain ⟨names, groups, rfl, hgrouped, hcs⟩ := of_readGroups h
    exact ⟨hgrouped, hcs.symm⟩
  · rintro ⟨⟨hne, hgrouped⟩, hcs⟩
    obtain ⟨names, groups, rfl⟩ := List.exists_cons_of_ne_nil hne
    rw [read, ← hcs]
    exact (readGroups_written (fun g hg => (hgrouped g hg).2) (Nat.lt_succ_self _)).mpr
      ⟨fun g hg => (hgrouped g hg).1, rfl⟩

/-- **Only one list of groups has a text that is an order**, empty groups or no group at all
included. -/
theorem written_inj {order : String} {groups named : List (List String)}
    (h : read order = .ok named) (hnames : ∀ g ∈ groups, ∀ name ∈ g, IsName name.toList)
    (hwritten : written groups = order.toList) : groups = named := by
  cases groups with
  | nil =>
      rw [read, ← hwritten] at h
      cases h
  | cons names groups =>
      rw [read, ← hwritten] at h
      exact ((readGroups_written hnames (Nat.lt_succ_self _)).mp h).2

/-! ## 4. Lists of names -/

/-- A text is the names one by one, with a separator between any two. -/
inductive Enumerates : List String → List Char → Prop where
  | last {name : String} : IsName name.toList → Enumerates [name] name.toList
  | more {name : String} {sep : Char} {names : List String} {cs : List Char} :
      IsName name.toList → sep = 'x' ∨ sep = '_' → Enumerates names cs →
      Enumerates (name :: names) (name.toList ++ sep :: cs)

theorem enumerates_written : ∀ {names : List String} {groups : List (List String)},
    Grouped (names :: groups) → Enumerates (names ++ groups.flatten) (written (names :: groups))
  | [], _, h => absurd rfl (h.2 [] List.mem_cons_self).1
  | [name], [], h => by
      rw [written_last]
      exact .last (grouped_last.mp h)
  | [name], group :: groups, h => by
      obtain ⟨hname, hrest⟩ := grouped_group.mp h
      rw [written_group]
      exact .more hname (.inr rfl) (enumerates_written hrest)
  | name :: other :: names, groups, h => by
      obtain ⟨hname, hrest⟩ := grouped_slot.mp h
      rw [written_slot]
      exact .more hname (.inl rfl) (enumerates_written hrest)

/-- **What separators do to names is to group them.** -/
theorem enumerates_iff {names : List String} {cs : List Char} : Enumerates names cs ↔
    ∃ groups, Grouped groups ∧ groups.flatten = names ∧ written groups = cs := by
  constructor
  · intro h
    induction h with
    | @last name hname => exact ⟨[[name]], grouped_last.mpr hname, rfl, written_last name⟩
    | @more name _ _ _ hname hsep _ ih =>
        obtain ⟨groups, hgrouped, rfl, rfl⟩ := ih
        obtain ⟨group, groups, rfl⟩ := List.exists_cons_of_ne_nil hgrouped.1
        rcases hsep with rfl | rfl
        · obtain ⟨other, names, rfl⟩ := hgrouped.exists_cons
          exact ⟨_, grouped_slot.mpr ⟨hname, hgrouped⟩, rfl, written_slot name other names groups⟩
        · exact ⟨_, grouped_group.mpr ⟨hname, hgrouped⟩, rfl, written_group name group groups⟩
  · rintro ⟨groups, hgrouped, rfl, rfl⟩
    obtain ⟨names, groups, rfl⟩ := List.exists_cons_of_ne_nil hgrouped.1
    exact enumerates_written hgrouped

end SlotOrder

/-! ## 5. Signatures -/

namespace Signature

open SlotOrder

/-- The text of groups of slots. -/
def orderText (names : List String) (groups : List (List Nat)) : String :=
  "_".intercalate (groups.map fun group =>
    "x".intercalate (group.map fun slot => names[slot]?.getD ""))

theorem toList_orderText (names : List String) (groups : List (List Nat)) :
    (orderText names groups).toList =
      written (groups.map fun group => group.map fun slot => names[slot]?.getD "") := by
  simp [orderText, written, Function.comp_def]

/-- What is looked up and found again is what it was. -/
theorem map_groups_eq_self {α β : Type} {f : α → β} {g : β → α} {groups : List (List α)}
    (h : ∀ group ∈ groups, ∀ a ∈ group, g (f a) = a) :
    (groups.map fun group => group.map f).map (fun group => group.map g) = groups := by
  rw [List.map_map]
  refine (List.map_congr_left fun group hgroup => ?_).trans (List.map_id groups)
  rw [Function.comp_apply, List.map_map]
  exact (List.map_congr_left fun a ha => h group hgroup a ha).trans (List.map_id group)

/-- **There is an order of slots exactly where the text lists the names.** -/
theorem exists_groupsOf_iff {names : List String} (hnodup : names.Nodup) {order : String} :
    (∃ slots, groupsOf names order = .ok slots) ↔
      ∃ listed, Enumerates listed order.toList ∧ listed.Perm names := by
  simp only [groupsOf_eq_ok_iff hnodup, read_eq_ok_iff, enumerates_iff]
  constructor
  · rintro ⟨_, groups, ⟨hgrouped, hwritten⟩, hperm, _⟩
    exact ⟨_, ⟨groups, hgrouped, rfl, hwritten⟩, hperm⟩
  · rintro ⟨_, ⟨groups, hgrouped, rfl, hwritten⟩, hperm⟩
    exact ⟨_, groups, ⟨hgrouped, hwritten⟩, hperm, rfl⟩

/-- **The groups of an order are the only ones with its text.** -/
theorem orderText_eq_iff {names : List String} (hnodup : names.Nodup)
    (hnames : ∀ name ∈ names, IsName name.toList) {order : String} {slots : List (List Nat)}
    (h : groupsOf names order = .ok slots) {groups : List (List Nat)}
    (hslots : ∀ group ∈ groups, ∀ slot ∈ group, slot < names.length) :
    orderText names groups = order ↔ groups = slots := by
  obtain ⟨named, hread, hperm, rfl⟩ := (groupsOf_eq_ok_iff hnodup).mp h
  rw [← String.toList_inj, toList_orderText]
  constructor
  · intro hwritten
    have hnamed := written_inj hread (fun group hgroup name hname => ?_) hwritten
    · rw [← hnamed, map_groups_eq_self fun group hgroup slot hslot => ?_]
      have hlt := hslots group hgroup slot hslot
      rw [List.getElem?_eq_getElem hlt, Option.getD_some, hnodup.idxOf_getElem slot hlt]
    · obtain ⟨slots, hmem, rfl⟩ := List.mem_map.mp hgroup
      obtain ⟨slot, hslot, rfl⟩ := List.mem_map.mp hname
      rw [List.getElem?_eq_getElem (hslots slots hmem slot hslot), Option.getD_some]
      exact hnames _ (List.getElem_mem _)
  · rintro rfl
    rw [map_groups_eq_self fun group hgroup name hname => ?_]
    · exact (read_eq_ok_iff.mp hread).2
    · have hmem := hperm.mem_iff.mp (List.mem_flatten.mpr ⟨group, hgroup, hname⟩)
      rw [List.getElem?_idxOf hmem, Option.getD_some]

/-- **Exactly which signatures there are.** Names make a signature where there are some, all are
well-formed and differ, and the order, if there is one, lists each of them once. Its groups have
every slot once; without an order each slot is a group, and with one they are the only groups of
slots with its text. -/
theorem create_exact (names : List String) (order : Option String) :
    ((∃ s, create names order = .ok s) ↔
      names ≠ [] ∧ (∀ name ∈ names, IsName name.toList) ∧ names.Nodup ∧
      ∀ text, order = some text → ∃ listed, Enumerates listed text.toList ∧ listed.Perm names) ∧
    ∀ s, create names order = .ok s → s.names = names ∧ s.order = order ∧
      s.groups.flatten.Perm (List.range names.length) ∧
      (order = none → s.groups = (List.range names.length).map fun slot => [slot]) ∧
      ∀ text, order = some text → ∀ groups : List (List Nat),
        (∀ group ∈ groups, ∀ slot ∈ group, slot < names.length) →
        (orderText names groups = text ↔ groups = s.groups) := by
  have hform : (∀ name ∈ names, WellNamed name) ↔ ∀ name ∈ names, IsName name.toList :=
    forall₂_congr fun _ _ => wellNamed_iff
  constructor
  · constructor
    · rintro ⟨s, h⟩
      obtain ⟨hne, hwell, hnodup, _, _, _, hgroups⟩ := create_eq_ok_iff.mp h
      exact ⟨hne, hform.mp hwell, hnodup, fun text htext =>
        (exists_groupsOf_iff hnodup).mp ⟨_, hgroups text htext⟩⟩
    · rintro ⟨hne, hnames, hnodup, hlisted⟩
      cases order with
      | none => exact ⟨⟨names, none, (List.range names.length).map fun slot => [slot]⟩,
          create_eq_ok_iff.mpr ⟨hne, hform.mpr hnames, hnodup, rfl, rfl, fun _ => rfl,
            fun _ h => by cases h⟩⟩
      | some order =>
          obtain ⟨slots, hslots⟩ := (exists_groupsOf_iff hnodup).mpr (hlisted order rfl)
          exact ⟨⟨names, some order, slots⟩, create_eq_ok_iff.mpr ⟨hne, hform.mpr hnames, hnodup,
            rfl, rfl, fun h => (by cases h), fun _ h => Option.some.inj h ▸ hslots⟩⟩
  · intro s h
    obtain ⟨_, hwell, hnodup, hs, ho, hsingles, hgroups⟩ := create_eq_ok_iff.mp h
    refine ⟨hs, ho, ?_, hsingles, fun text htext groups hslots => ?_⟩
    · rw [← hs]
      exact (Created.proper ⟨names, order, h⟩).groups
    · exact orderText_eq_iff hnodup (hform.mp hwell) (hgroups text htext) hslots

/-- An `x` in a kind, at its start or as all of it, separates nothing. -/
theorem create_exact_crossed : ∃ s,
    create ["Ex0", "M0", "x1"] (some "M0xx1_Ex0") = .ok s ∧ s.groups = [[1, 2], [0]] ∧
    ∀ groups : List (List Nat), (∀ group ∈ groups, ∀ slot ∈ group, slot < 3) →
      (orderText ["Ex0", "M0", "x1"] groups = "M0xx1_Ex0" ↔ groups = [[1, 2], [0]]) := by
  have h : create ["Ex0", "M0", "x1"] (some "M0xx1_Ex0") =
      .ok ⟨["Ex0", "M0", "x1"], some "M0xx1_Ex0", [[1, 2], [0]]⟩ := by decide +kernel
  exact ⟨_, h, rfl, ((create_exact _ _).2 _ h).2.2.2.2 _ rfl⟩

end Signature

end Factbase
