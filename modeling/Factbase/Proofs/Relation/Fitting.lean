import Factbase.Proofs.Relation.Combining
import Factbase.Proofs.Signatures

/-!
# Fitting a file's variables to a layout

The slots of a file are aligned with those of a layout at the least significant bits. What is
spelled in a layout is what is spelled in the file, as long as the bits that the file lacks are
zero.

* `number_lt_iff`: a number is small where its leading bits are zero;
* `fixed_all_iff`: **the literals that fill up a file say that every number has the file's width**;
* `read_eq_map`: **where they are true, the layout spells what the file spells**;
* `ends_cutDown`: **the diagram that has those tuples of the domains that a file spells**;
* `ends_readContents_spelled`: **the body of a file, cut down to the domains**;
* `exists_saved`: **the tuples of a relation are written as a proper body.**
-/

namespace Factbase.Relation

open Diagram

/-! ## 1. Leading bits -/

/-- The bits of a slot that a file lacks. -/
def missing (vars saved : List Nat) : List Nat := vars.take (vars.length - saved.length)

/-- The bits of a slot that a file has. -/
def present (vars saved : List Nat) : List Nat := vars.drop (vars.length - saved.length)

section Bits

variable {ρ : Assignment} {vars saved : List Nat}

theorem number_append (high low : List Nat) :
    number ρ (high ++ low) = number ρ high * 2 ^ low.length + number ρ low := by
  rw [number, List.foldl_append, ← number, foldl_number]

theorem number_eq_zero_iff : number ρ vars = 0 ↔ ∀ v ∈ vars, ρ v = false := by
  induction vars with
  | nil => simp [number]
  | cons v vars ih =>
      have hpos := Nat.two_pow_pos vars.length
      rw [number_cons, List.forall_mem_cons, ← ih]
      cases ρ v <;> simp

variable (h : saved.length ≤ vars.length)

include h

theorem length_present : (present vars saved).length = saved.length := by
  rw [present, List.length_drop]
  omega

theorem number_split :
    number ρ vars = number ρ (missing vars saved) * 2 ^ saved.length +
      number ρ (present vars saved) := by
  rw [← length_present h, ← number_append, missing, present, List.take_append_drop]

/-- **A number is small where its leading bits are zero.** -/
theorem number_lt_iff :
    number ρ vars < 2 ^ saved.length ↔ ∀ v ∈ missing vars saved, ρ v = false := by
  have hlow : number ρ (present vars saved) < 2 ^ (present vars saved).length := number_lt
  rw [length_present h] at hlow
  rw [number_split h, ← number_eq_zero_iff]
  constructor
  · intro hlt
    by_contra hne
    have := Nat.mul_le_mul_right (2 ^ saved.length) (Nat.one_le_iff_ne_zero.mpr hne)
    omega
  · intro hzero
    rw [hzero]
    omega

/-- Then it is spelled by the bits that the file has. -/
theorem number_eq_present (hlt : number ρ vars < 2 ^ saved.length) :
    number ρ vars = number ρ (present vars saved) := by
  have hzero := number_eq_zero_iff.mpr ((number_lt_iff h).mp hlt)
  rw [number_split h, hzero, Nat.zero_mul, Nat.zero_add]

end Bits

/-! ## 2. Slots -/

/-- No slot of the file is wider than the layout's. -/
def Roomy (slots fileVars : List (List Nat)) : Prop :=
  List.Forall₂ (fun vars saved => List.length saved ≤ List.length vars) slots fileVars

/-- There is room where there is for the widths of the slots. -/
theorem roomy_iff {slots fileVars : List (List Nat)} : Roomy slots fileVars ↔
    List.Forall₂ (fun vars width => List.length vars ≤ width) fileVars (slots.map List.length) := by
  rw [List.forall₂_map_right_iff]
  exact ⟨fun h => h.flip, fun h => h.flip⟩

/-- Numbers have the widths of the slots. -/
def Within (slots : List (List Nat)) (t : List Nat) : Prop :=
  List.Forall₂ (fun vars k => k < 2 ^ List.length vars) slots t

section Slots

variable {ρ : Assignment} {slots fileVars : List (List Nat)} (hroom : Roomy slots fileVars)

include hroom

/-- The bits that a file lacks and those that it has are all bits of the slot: what is subtracted
from a width is never more than it. -/
theorem length_missing_add {p : List Nat × List Nat} (hp : p ∈ slots.zip fileVars) :
    (missing p.1 p.2).length + p.2.length = p.1.length := by
  have hle : p.2.length ≤ p.1.length := (List.forall₂_iff_zip.mp hroom).2 hp
  rw [missing, List.length_take]
  omega

/-- The bits that a file lacks are zero where all numbers have the file's widths. -/
theorem forall_missing_iff : (∀ p ∈ slots.zip fileVars, ∀ v ∈ missing p.1 p.2, ρ v = false) ↔
    Within fileVars (slots.map (number ρ)) := by
  unfold Within
  induction hroom with
  | nil => simp
  | @cons vars saved slots fileVars hle _ ih =>
      rw [List.zip_cons_cons, List.forall_mem_cons, ih, List.map_cons, List.forall₂_cons,
        number_lt_iff hle]

theorem map_number_present (h : Within fileVars (slots.map (number ρ))) :
    slots.map (number ρ) = (List.zipWith present slots fileVars).map (number ρ) := by
  unfold Within at h
  induction hroom with
  | nil => rfl
  | @cons vars saved slots fileVars hle _ ih =>
      rw [List.map_cons, List.forall₂_cons] at h
      rw [List.map_cons, List.zipWith_cons_cons, List.map_cons, ← number_eq_present hle h.1, ih h.2]

/-- What has the file's widths has the layout's. -/
theorem within_of_roomy {t : List Nat} (h : Within fileVars t) : Within slots t := by
  unfold Within at h ⊢
  induction hroom generalizing t with
  | nil => exact h
  | cons hle _ ih =>
      cases h with
      | cons hk hrest =>
          exact .cons (Nat.lt_of_lt_of_le hk (Nat.pow_le_pow_right (by decide) hle)) (ih hrest)

theorem map_length_present :
    fileVars.map List.length = (List.zipWith present slots fileVars).map List.length := by
  induction hroom with
  | nil => rfl
  | @cons vars saved slots fileVars hle _ ih =>
      rw [List.zipWith_cons_cons, List.map_cons, List.map_cons, length_present hle, ih]

/-- The file's variables and their counterparts, slot by slot. -/
theorem flatMap_zip_present :
    ((slots.zip fileVars).flatMap fun p => p.2.zip (present p.1 p.2)) =
      fileVars.flatten.zip (List.zipWith present slots fileVars).flatten := by
  induction hroom with
  | nil => rfl
  | @cons vars saved slots fileVars hle _ ih =>
      rw [List.zip_cons_cons, List.flatMap_cons, ih, List.zipWith_cons_cons, List.flatten_cons,
        List.flatten_cons, List.zip_append (length_present hle).symm]

end Slots

section Fitting

variable {l : Layout} {m : Manager} {fileVars : List (List Nat)}

theorem fixed_eq : (fit l fileVars).fixed =
    (l.slots.zip fileVars).flatMap fun p => (missing p.1 p.2).map fun (v : Nat) => -(v : Int) := by
  unfold fit
  dsimp only
  rw [List.flatMap_map]
  rfl

theorem remap_eq (hroom : Roomy l.slots fileVars) : (fit l fileVars).remap =
    .ofList (fileVars.flatten.zip (List.zipWith present l.slots fileVars).flatten) := by
  unfold fit
  dsimp only
  rw [← flatMap_zip_present hroom, List.flatMap_map]
  rfl

variable (hl : l.Sound m) (hroom : Roomy l.slots fileVars)

include hroom

include hl in
/-- **The literals that fill up a file say that every number has the file's width.** -/
theorem fixed_all_iff {ρ : Assignment} :
    (fit l fileVars).fixed.all (Manager.literalTrue ρ) = true ↔ Within fileVars (l.read ρ) := by
  have hliteral : ∀ v : Nat, v ≠ 0 → (Manager.literalTrue ρ (-(v : Int)) = true ↔ ρ v = false) := by
    intro v hv
    unfold Manager.literalTrue
    rw [decide_eq_true (by omega), Int.natAbs_neg, Int.natAbs_natCast]
    cases ρ v <;> decide
  have hzero : ∀ p ∈ l.slots.zip fileVars, ∀ v ∈ missing p.1 p.2, v ≠ 0 := fun p hp v hv =>
    (hl.allocated (List.of_mem_zip hp).1 (List.mem_of_mem_take hv)).1
  rw [Layout.read, ← forall_missing_iff hroom, fixed_eq, List.all_flatMap, List.all_eq_true]
  refine forall₂_congr fun p hp => ?_
  rw [List.all_map, List.all_eq_true]
  exact forall₂_congr fun v hv => hliteral v (hzero p hp v hv)

/-- **Where they are true, the layout spells what the file spells.** -/
theorem read_eq_map (hnodup : fileVars.flatten.Nodup) {ρ : Assignment}
    (h : Within fileVars (l.read ρ)) :
    l.read ρ = fileVars.map (number (Body.carried ((fit l fileVars).remap[·]?) ρ)) := by
  have hlen : fileVars.flatten.length = (List.zipWith present l.slots fileVars).flatten.length := by
    rw [List.length_flatten, List.length_flatten, map_length_present hroom]
  have hbits := map_carried hnodup hlen ρ
  rw [← remap_eq hroom] at hbits
  rw [map_number_eq_of_map (map_length_present hroom) hbits]
  exact map_number_present hroom h

end Fitting

/-! ## 3. What a file spells -/

/-- What is spelled has the widths of the slots. -/
theorem within_of_spelled {slots : List (List Nat)} {value : Assignment → Bool} {t : List Nat}
    (ht : t ∈ spelled slots value) : Within slots t := by
  obtain ⟨σ, rfl, _⟩ := ht
  exact List.forall₂_map_right_iff.mpr (List.forall₂_same.mpr fun _ _ => number_lt)

section Spelled

variable {l : Layout} {m : Manager} {fileVars : List (List Nat)} {value : Assignment → Bool}
  (hroom : Roomy l.slots fileVars) (hnodup : fileVars.flatten.Nodup)

include hroom

theorem fits_of_spelled {t : List Nat} (ht : t ∈ spelled fileVars value) : l.Fits t :=
  within_of_roomy hroom (within_of_spelled ht)

include hnodup

/-- **Where the bits that a file lacks are zero, the layout spells the file's tuples.** -/
theorem spelled_iff (hvalue : ∀ σ σ' : Assignment, (∀ v ∈ fileVars.flatten, σ v = σ' v) →
      value σ = value σ') {ρ : Assignment} :
    (value (Body.carried ((fit l fileVars).remap[·]?) ρ) = true ∧ Within fileVars (l.read ρ)) ↔
      l.read ρ ∈ spelled fileVars value := by
  constructor
  · rintro ⟨htrue, hwithin⟩
    exact ⟨_, (read_eq_map hroom hnodup hwithin).symm, htrue⟩
  · intro hmem
    have hwithin := within_of_spelled hmem
    obtain ⟨σ, hσ, htrue⟩ := hmem
    have hsame := map_number_inj (hσ.trans (read_eq_map hroom hnodup hwithin))
    exact ⟨by rw [← hvalue _ _ hsame, htrue], hwithin⟩

/-- Every variable of the file has a counterpart. -/
theorem exists_counterpart (hl : l.Sound m) : ∀ v ∈ fileVars.flatten, ∃ w,
    (fit l fileVars).remap[v]? = some w ∧ m.order.Allocated w := by
  intro v hv
  have hlens : fileVars.flatten.length =
      (List.zipWith present l.slots fileVars).flatten.length := by
    rw [List.length_flatten, List.length_flatten, map_length_present hroom]
  obtain ⟨i, hi, rfl⟩ := List.mem_iff_getElem.mp hv
  have hget := getElem?_ofList_zip hnodup hlens (List.mem_iff_getElem.mpr
    ⟨i, by rw [List.length_zip]; omega, List.getElem_zip⟩)
  rw [← remap_eq hroom] at hget
  exact ⟨_, hget, fit_allocated hl _ _ _ hget⟩

omit hnodup in
/-- Only variables of the file have a counterpart. -/
theorem mem_of_counterpart {v : Nat} (h : ((fit l fileVars).remap[v]?).isSome = true) :
    v ∈ fileVars.flatten := by
  rw [remap_eq hroom, ← Std.HashMap.contains_eq_isSome_getElem?, Std.HashMap.contains_ofList] at h
  obtain ⟨p, hp, rfl⟩ := List.mem_map.mp (List.contains_iff_mem.mp h)
  exact (List.of_mem_zip hp).1

variable (value) in
/-- **A diagram with the values of a file's function is cut down to the domains.** It is true on the
tuples that the file spells with indices below the sizes of the domains, and the answer tells
whether there are others. -/
theorem ends_cutDown (hm : m.WellFormed) (hl : l.Sound m)
    (hvalue : ∀ σ σ' : Assignment, (∀ v ∈ fileVars.flatten, σ v = σ' v) → value σ = value σ')
    {g : Edge} (hg : m.Holds g)
    (hgval : ∀ ρ, m.eval ρ g = value (Body.carried ((fit l fileVars).remap[·]?) ρ)) :
    Ends (do
        let f ← Manager.conj g (← Manager.cube (fit l fileVars).fixed)
        let inside ← Manager.conj f (← l.inDomains)
        return (.ok (inside, inside ≠ f) : Except BodyError (Edge × Bool))) m fun result m' =>
      m.Next m' ∧ ∃ root dropped, result = .ok (root, dropped) ∧ m'.Holds root ∧
        (∀ ρ, m'.eval ρ root = true ↔ l.read ρ ∈ {t ∈ spelled fileVars value | l.Inside t}) ∧
        (dropped = true ↔ ∃ t ∈ spelled fileVars value, ¬ l.Inside t) := by
  refine Ends.bind (Manager.makes_cube hm (fit_cubic hl _)) fun d m₁ ⟨n₁, hd, hdval⟩ => ?_
  refine Ends.bind (Manager.makes_conj n₁.1 (n₁.holds hg) hd) fun f m₂ ⟨n₂, hf, hfval⟩ => ?_
  refine Ends.bind ((hl.next (n₁.trans n₂)).makes_inDomains n₂.1) fun e m₃ ⟨n₃, he, heval⟩ => ?_
  refine Ends.bind (Manager.makes_conj n₃.1 (n₃.holds hf) he) fun r m₄ ⟨n₄, hr, hrval⟩ => ?_
  have n := n₁.trans (n₂.trans (n₃.trans n₄))
  -- before the cut the diagram has the file's tuples
  have hfixed : ∀ ρ, m₁.eval ρ d = true ↔ Within fileVars (l.read ρ) := fun ρ => by
    rw [hdval]
    exact fixed_all_iff hl hroom
  have hfile : ∀ ρ, m₄.eval ρ f = true ↔ l.read ρ ∈ spelled fileVars value := fun ρ => by
    have hboth : m₄.eval ρ f = (m₁.eval ρ g && m₁.eval ρ d) :=
      ((n₃.trans n₄).eval_eq n₂.1 hf ρ).trans (hfval ρ)
    rw [← spelled_iff hroom hnodup hvalue, ← hgval, ← hfixed, hboth, n₁.eval_eq hm hg,
      Bool.and_eq_true]
  have hcut : ∀ ρ, m₄.eval ρ r = true ↔ m₄.eval ρ f = true ∧ l.Inside (l.read ρ) := fun ρ => by
    have hboth : m₄.eval ρ r = (m₃.eval ρ f && m₃.eval ρ e) := hrval ρ
    have hinside : m₃.eval ρ e = true ↔ l.Inside (l.read ρ) := by
      rw [heval]
      exact Layout.all_range_iff
    rw [hboth, Bool.and_eq_true, hinside, n₄.eval_eq n₃.1 (n₃.holds hf)]
  refine ends_pure ⟨n, r, _, rfl, hr, fun ρ => by rw [hcut, hfile]; rfl, ?_⟩
  rw [decide_eq_true_iff]
  constructor
  · intro hne
    by_contra hall
    simp only [not_exists, not_and, not_not] at hall
    refine hne (n₄.1.eq_of_eval_eq hr (n₄.holds (n₃.holds hf)) fun ρ => ?_)
    rw [Bool.eq_iff_iff, hcut]
    exact and_iff_left_of_imp fun htrue => hall _ ((hfile ρ).mp htrue)
  · rintro ⟨t, ht, hout⟩ rfl
    obtain ⟨ρ, rfl⟩ := hl.exists_read (fits_of_spelled hroom ht)
    exact hout ((hcut ρ).mp ((hfile ρ).mpr ht)).2

/-- **The body of a file, cut down to the domains.** Its diagram is true on the tuples that the file
spells with indices below the sizes of the domains, and the answer tells whether there are
others. -/
theorem ends_readContents_spelled (hm : m.WellFormed) (hl : l.Sound m) {b : Body}
    {lines : List (Option (List Char))} (hspelled : b.SpelledBy lines) (hgraph : b.Graph)
    (htested : ∀ line ∈ b.lines, line.var ∈ fileVars.flatten) :
    Ends (readContents l (fit l fileVars) lines) m fun result m' => m.Next m' ∧
      ∃ root dropped, result = .ok (root, dropped) ∧ m'.Holds root ∧
        (∀ ρ, m'.eval ρ root = true ↔ l.read ρ ∈ {t ∈ spelled fileVars b.value | l.Inside t}) ∧
        (dropped = true ↔ ∃ t ∈ spelled fileVars b.value, ¬ l.Inside t) := by
  unfold readContents
  refine (Manager.ends_readBody_spelled hm hspelled hgraph fun line hline =>
    exists_counterpart hroom hnodup hl _ (htested line hline)).bind ?_
  rintro result m₁ ⟨n₁, g, rfl, hg, hgval⟩
  refine (ends_cutDown b.value hroom hnodup n₁.1 (hl.next n₁) (fun σ σ' same =>
    Body.value_congr fun line hline => same _ (htested line hline)) hg hgval).mono ?_
  exact fun result m₂ ⟨n₂, hrest⟩ => ⟨n₁.trans n₂, hrest⟩

end Spelled

/-! ## 4. Saved tuples -/

section Saved

variable {schema : Schema} {c : Contents} (hc : c.Sound schema) (names names' : List String)

/-- What the slots spell are the tuples, in any order of the slots. -/
theorem spelled_rearranged :
    spelled (Signature.rearranged names names' c.layout.slots) (c.manager.eval · c.root) =
      Signature.rearranged names names' '' c.tuples := by
  have hread : ∀ σ, (Signature.rearranged names names' c.layout.slots).map (number σ) =
      Signature.rearranged names names' (c.layout.read σ) := fun σ =>
    (Signature.rearranged_map (f := number σ) rfl).symm
  ext t
  constructor
  · rintro ⟨σ, rfl, htrue⟩
    exact ⟨_, ⟨σ, rfl, htrue⟩, (hread σ).symm⟩
  · rintro ⟨_, ⟨σ, rfl, htrue⟩, rfl⟩
    exact ⟨σ, hread σ, htrue⟩

include hc

/-- **The tuples of a relation are written as a proper body over the variables of its slots.** -/
theorem exists_saved (haddr : c.manager.Addressable) :
    ∃ b, c.manager.body c.root = .ok b ∧ b.Proper ∧
      (∀ line ∈ b.lines, line.var ∈ c.layout.slots.flatten) ∧
      spelled (Signature.rearranged names names' c.layout.slots) b.value =
        Signature.rearranged names names' '' c.tuples := by
  obtain ⟨b, hbody, hproper, htested, hvalue⟩ := Manager.exists_proper_body hc.manager hc.root
    hc.dependsOn haddr (hc.numVars_lt_word haddr) fun _ _ => hc.var_lt haddr
  refine ⟨b, hbody, hproper, fun line hline => List.mem_toFinset.mp (htested line hline), ?_⟩
  rw [← spelled_rearranged, funext hvalue]

end Saved

end Factbase.Relation
