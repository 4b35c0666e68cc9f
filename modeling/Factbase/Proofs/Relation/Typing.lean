import Factbase.Proofs.Domains
import Factbase.Proofs.Relation.Confinement
import Factbase.Proofs.Relation.Filling

/-!
# Tuples of values

A tuple of values is handed over as the positions of the values in the domains of their slots. The
domains may have grown since the relation was opened.

* `Positions`: a tuple of indices has the positions of values;
* `Positions.unique`, `Positions.values_unique`: **over bijective domains either determines the
  other**;
* `Admissible`: the values can be looked up and their positions fit; `admissible_iff`: **then they
  have valid positions**;
* `resolveTuple_eq_ok_iff`: the look-up and the checks let exactly these pass;
* `positions_of_decodeTuple`: what is decoded has the positions that it was decoded from;
* `reached_typed`: **the calls with values are those with their positions, and the values that come
  out are those that are contained.**
-/

namespace Factbase

/-- The domain of a slot is one of those in use. -/
theorem Catalog.Built.lawful_slot {cat : Catalog} (h : cat.Built) (schema : Relation.Schema)
    (slot : Nat) : (schema.domain cat slot).Lawful := by
  unfold Relation.Schema.domain
  cases schema.domains[slot]? with
  | none => exact Numbering.lawful_empty
  | some handle => exact h.lawful handle

namespace Relation

open Diagram

/-! ## 1. Positions -/

/-- The indices are the positions of the values in the domains of their slots. -/
structure Positions (cat : Catalog) (schema : Schema) (values : List Value) (t : List Nat) :
    Prop where
  length : t.length = values.length
  stands : ∀ slot index, t[slot]? = some index →
    (schema.domain cat slot).get? index = values[slot]?

section Positions

variable {cat : Catalog} {schema : Schema} {values values' : List Value} {t t' : List Nat}

/-- An index for every value. -/
theorem Positions.exists_index (h : Positions cat schema values t) {slot : Nat} {v : Value}
    (hv : values[slot]? = some v) :
    ∃ index, t[slot]? = some index ∧ (schema.domain cat slot).get? index = some v := by
  have hlt : slot < t.length := h.length ▸ (List.getElem?_eq_some_iff.mp hv).1
  have hget := List.getElem?_eq_getElem hlt
  exact ⟨_, hget, (h.stands slot _ hget).trans hv⟩

/-- A value for every index. -/
theorem Positions.exists_value (h : Positions cat schema values t) {slot index : Nat}
    (hindex : t[slot]? = some index) :
    ∃ v, values[slot]? = some v ∧ (schema.domain cat slot).get? index = some v := by
  have hlt : slot < values.length := h.length ▸ (List.getElem?_eq_some_iff.mp hindex).1
  have hget := List.getElem?_eq_getElem hlt
  exact ⟨_, hget, (h.stands slot index hindex).trans hget⟩

/-- Indices determine the values. -/
theorem Positions.values_unique (h : Positions cat schema values t)
    (h' : Positions cat schema values' t) : values = values' := by
  refine List.ext_getElem? fun slot => ?_
  cases hindex : t[slot]? with
  | some index => rw [← h.stands slot index hindex, ← h'.stands slot index hindex]
  | none =>
      have hle := List.getElem?_eq_none_iff.mp hindex
      rw [List.getElem?_eq_none (h.length ▸ hle), List.getElem?_eq_none (h'.length ▸ hle)]

variable (hcat : cat.Built)

include hcat

/-- **Values determine the indices.** -/
theorem Positions.unique (h : Positions cat schema values t) (h' : Positions cat schema values t') :
    t = t' := by
  refine List.ext_getElem (h.length.trans h'.length.symm) fun slot hlt hlt' => ?_
  have hget := List.getElem?_eq_getElem hlt
  have hget' := List.getElem?_eq_getElem hlt'
  obtain ⟨v, hv, hstands⟩ := h.exists_value hget
  exact (hcat.lawful_slot schema slot).position_inj hstands
    ((h'.stands slot _ hget').trans hv)

theorem biUnique_positions : Relator.BiUnique (Positions cat schema) :=
  ⟨fun _ _ _ => Positions.values_unique, fun _ _ _ => Positions.unique hcat⟩

/-! ## 2. Looking values up -/

theorem resolveValue_eq_ok_iff {slot index : Nat} {v : Value} :
    resolveValue (schema.domain cat slot) slot v = .ok index ↔
      (schema.domain cat slot).get? index = some v := by
  have hlawful := hcat.lawful_slot schema slot
  unfold resolveValue
  by_cases htype : (schema.domain cat slot).type = v.type
  · rw [if_neg (not_not.mpr htype), ← hlawful.indexOf?_eq_some_iff]
    cases (schema.domain cat slot).indexOf? v <;> simp
  · rw [if_pos htype]
    exact iff_of_false (fun heq => by cases heq) fun hget => htype (Universe.type_eq_of_get? hget)

/-- What is looked up are the positions. -/
theorem positions_of_mapM (run : (values.zipIdx.mapM fun (v, slot) =>
      resolveValue (schema.domain cat slot) slot v) = .ok t) : Positions cat schema values t := by
  have hall := mapM_eq_ok_iff.mp run
  have hlen := hall.length_eq
  rw [List.length_zipIdx] at hlen
  refine ⟨hlen.symm, fun slot index hindex => ?_⟩
  obtain ⟨p, hp, hresolved⟩ := exists_of_forall₂ hall.flip hindex
  rw [List.getElem?_zipIdx, Nat.zero_add, Option.map_eq_some_iff] at hp
  obtain ⟨v, hv, rfl⟩ := hp
  rw [hv]
  exact (resolveValue_eq_ok_iff hcat).mp hresolved

/-- **Values that stand in their domains have positions.** -/
theorem exists_positions (hpresent : ∀ slot v, values[slot]? = some v →
      ∃ index, (schema.domain cat slot).get? index = some v) :
    ∃ t, (values.zipIdx.mapM fun (v, slot) => resolveValue (schema.domain cat slot) slot v) =
      .ok t ∧ Positions cat schema values t := by
  have hresolved : ∀ p ∈ values.zipIdx,
      ∃ index, resolveValue (schema.domain cat p.2) p.2 p.1 = .ok index := fun p hp =>
    (hpresent p.2 p.1 (List.mem_zipIdx_iff_getElem?.mp hp)).imp fun _ =>
      (resolveValue_eq_ok_iff hcat).mpr
  obtain ⟨t, run⟩ := exists_mapM_eq_ok hresolved
  exact ⟨t, run, positions_of_mapM hcat run⟩

variable {layout : Layout}

/-- **Exactly the values with valid positions pass, as these.** -/
theorem resolveTuple_eq_ok_iff : resolveTuple cat schema layout values = .ok t ↔
    Positions cat schema values t ∧ Valid cat schema layout t := by
  constructor
  · intro run
    obtain ⟨_, _, run⟩ := ok_of_bind run
    obtain ⟨indices, hresolved, hcheck⟩ := ok_of_bind run
    obtain ⟨hvalid, rfl⟩ := valid_of_checkTuple hcheck
    exact ⟨positions_of_mapM hcat hresolved, hvalid⟩
  · rintro ⟨hpositions, hvalid⟩
    -- Every value has a position, so that looking them up comes to some tuple; it is this one.
    obtain ⟨t', hresolved, hpositions'⟩ := exists_positions hcat fun slot v hv =>
      (hpositions.exists_index hv).imp fun _ h => h.2
    obtain rfl := hpositions.unique hcat hpositions'
    have harity : checkArity layout values.length = .ok () :=
      if_pos (hpositions.length.symm.trans hvalid.arity)
    exact bind_eq_ok harity (bind_eq_ok hresolved (checkTuple_eq hvalid))

end Positions

/-- The values can be looked up, each in a domain of its type, and their positions fit the bits that
the slots got on opening. -/
structure Admissible (cat : Catalog) (schema : Schema) (layout : Layout) (values : List Value) :
    Prop where
  arity : values.length = layout.arity
  typed : ∀ slot v, values[slot]? = some v → (schema.domain cat slot).type = v.type
  present : ∀ slot v, values[slot]? = some v → v ∈ (schema.domain cat slot).values
  fits : ∀ slot v index, values[slot]? = some v →
    (schema.domain cat slot).get? index = some v → index < 2 ^ layout.width slot

/-- **Admissible values are those with valid positions.** -/
theorem admissible_iff {cat : Catalog} {schema : Schema} {layout : Layout} {values : List Value}
    (hcat : cat.Built) : Admissible cat schema layout values ↔
      ∃ t, Positions cat schema values t ∧ Valid cat schema layout t := by
  constructor
  · intro h
    obtain ⟨t, _, hpositions⟩ := exists_positions hcat fun slot v hv =>
      Universe.mem_values_iff.mp (h.present slot v hv)
    refine ⟨t, hpositions, hpositions.length.trans h.arity, fun slot index hindex => ?_,
      fun slot index hindex => ?_⟩ <;>
    obtain ⟨v, hv, hstands⟩ := hpositions.exists_value hindex
    · exact Universe.lt_size_of_get? hstands
    · exact h.fits slot v index hv hstands
  · rintro ⟨t, hpositions, hvalid⟩
    refine ⟨hpositions.length.symm.trans hvalid.arity, fun slot v hv => ?_, fun slot v hv => ?_,
      fun slot v index hv hindex => ?_⟩ <;>
    obtain ⟨position, hposition, hstands⟩ := hpositions.exists_index hv
    · exact Universe.type_eq_of_get? hstands
    · exact Universe.mem_values_iff.mpr ⟨position, hstands⟩
    · obtain rfl := (hcat.lawful_slot schema slot).position_inj hindex hstands
      exact hvalid.inWidth slot index hposition

/-! ## 3. Decoding -/

section Decoding

variable {cat : Catalog} {schema : Schema} {types : List ElementType} {t : List Nat}

theorem get?_of_valueAt {u : Universe} {slot index : Nat} {type : ElementType} {v : Value}
    (h : valueAt u slot type index = .ok v) : u.get? index = some v := by
  unfold valueAt at h
  split at h
  · cases h
  · split at h
    · rename_i hget
      exact hget.trans (congrArg some (Except.ok.inj h))
    · cases h

/-- **What is decoded has the positions that it was decoded from.** -/
theorem positions_of_decodeTuple (hlen : types.length = t.length) {vs : List Value}
    (run : decodeTuple cat schema types (ofIndices t) = .ok vs) : Positions cat schema vs t := by
  have hitems : (ofIndices t).items.length = t.length := List.length_map _
  have hall := mapM_eq_ok_iff.mp (ok_of_mapError run)
  have hlength := hall.length_eq
  rw [List.length_zipIdx, List.length_zip, hlen, hitems, Nat.min_self] at hlength
  refine ⟨hlength, fun slot index hindex => ?_⟩
  obtain ⟨type, htype⟩ : ∃ type, types[slot]? = some type :=
    ⟨_, List.getElem?_eq_getElem (hlen ▸ (List.getElem?_eq_some_iff.mp hindex).1)⟩
  have hitem : (ofIndices t).items[slot]? = some (index : Int) := by
    rw [ofIndices, List.getElem?_map, hindex]
    rfl
  have hzip := (List.getElem?_zip_eq_some (z := (type, (index : Int)))).mpr ⟨htype, hitem⟩
  have hpair : (types.zip (ofIndices t).items).zipIdx[slot]? =
      some ((type, (index : Int)), slot) := by
    rw [List.getElem?_zipIdx, hzip, Nat.zero_add]
    rfl
  obtain ⟨v, hv, hvalue⟩ := exists_of_forall₂ hall hpair
  have hvalue : valueAt (schema.domain cat slot) slot type index = .ok v := hvalue
  rw [hv]
  exact get?_of_valueAt hvalue

/-- **Tuples inside their domains come as the values that have their positions.** -/
theorem exists_decoded (htypes : schema.HasTypes cat types) : ∀ {ts : List (List Nat)},
    (∀ t ∈ ts, types.length = t.length ∧ schema.Inside cat t) → ∃ vss : List (List Value),
      (ts.map ofIndices).map (decodeTuple cat schema types) = vss.map .ok ∧
      List.Forall₂ (Positions cat schema) vss ts
  | [], _ => ⟨[], rfl, .nil⟩
  | t :: ts, hts => by
      obtain ⟨⟨hlen, ht⟩, hts⟩ := List.forall_mem_cons.mp hts
      obtain ⟨vs, hvs⟩ := decodeTuple_of_inside ht htypes
      obtain ⟨vss, hvss, hall⟩ := exists_decoded htypes hts
      refine ⟨vs :: vss, ?_, .cons (positions_of_decodeTuple hlen hvs) hall⟩
      rw [List.map_cons, List.map_cons, List.map_cons, hvs, hvss]

end Decoding

/-! ## 4. Calls -/

section Calls

variable {r : Relation} {schema : Schema} {c : Contents} (hopen : r.stage = .opened schema c)
  {cat : Catalog} (hcat : cat.Built) {values : List Value}

include hopen hcat

/-- **Values pass as their valid positions.** -/
theorem resolved_eq {t : List Nat} (hpositions : Positions cat schema values t)
    (hvalid : Valid cat schema c.layout t) : resolved cat values r = .ok t r :=
  (bind_of_ok (opening_eq hopen)).trans
    (orProblem_eq_ok ((resolveTuple_eq_ok_iff hcat).mpr ⟨hpositions, hvalid⟩))

/-- **A call with values is the call with their positions.** -/
theorem resolved_bind {α : Type} {t : List Nat} (hpositions : Positions cat schema values t)
    (hvalid : Valid cat schema c.layout t) (call : List Nat → RelationM α) :
    (resolved cat values >>= call) r = (checked cat t >>= call) r :=
  (bind_of_ok (resolved_eq hopen hcat hpositions hvalid)).trans
    (bind_of_ok (checked_eq hopen hvalid)).symm

/-- Other values are refused, and the relation is as it was. -/
theorem resolved_error (h : ¬ Admissible cat schema c.layout values) :
    ∃ e, resolved cat values r = .error (.error e) r := by
  cases hresolve : resolveTuple cat schema c.layout values with
  | ok t =>
      have hpassed := (resolveTuple_eq_ok_iff hcat).mp hresolve
      exact absurd ((admissible_iff hcat).mpr ⟨t, hpassed⟩) h
  | error problem =>
      exact ⟨_, (bind_of_ok (opening_eq hopen)).trans (orProblem_eq_error hresolve)⟩

variable (hc : c.Sound schema) (hin : ∀ t ∈ c.tuples, schema.Inside cat t)

include hc hin

/-- **The values that are contained have the positions of a tuple.** -/
theorem contains_eq_true_iff : (∃ r', contains cat values r = .ok true r') ↔
    ∃ t ∈ c.tuples, Positions cat schema values t := by
  constructor
  · rintro ⟨r', run⟩
    by_cases hadmissible : Admissible cat schema c.layout values
    · obtain ⟨t, hpositions, hvalid⟩ := (admissible_iff hcat).mp hadmissible
      obtain ⟨found, _, hends, hfound, _⟩ := ends_containsIndices hopen hc hvalid
      have heq := run.symm.trans ((resolved_bind hopen hcat hpositions hvalid _).trans hends)
      obtain ⟨rfl, _⟩ := EStateM.Result.ok.inj heq
      exact ⟨t, hfound.mp rfl, hpositions⟩
    · obtain ⟨e, hrefused⟩ := resolved_error hopen hcat hadmissible
      cases run.symm.trans (bind_eq_error hrefused)
  · rintro ⟨t, ht, hpositions⟩
    have hvalid : Valid cat schema c.layout t := valid_of_fits (c.fits_of_mem ht) (hin t ht)
    obtain ⟨found, r', hends, hfound, _⟩ := ends_containsIndices hopen hc hvalid
    obtain rfl := hfound.mpr ht
    exact ⟨r', (resolved_bind hopen hcat hpositions hvalid _).trans hends⟩

end Calls

/-! ## 5. Main result -/

/-- **Calls with values.** In every open relation that is reached, over domains of its own making
that may have grown, values are refused by all calls alike exactly where they are not admissible,
and the relation is as it was; otherwise every call is the call with their positions. While all
tuples are inside the domains, every one of them comes as values of the domains' types, none
twice, and these are the values that are contained. The domains are only read: no call gives others
back. -/
theorem reached_typed {r : Relation} (h : Reached r) {schema : Schema} {c : Contents}
    (hopen : r.stage = .opened schema c) {cat : Catalog} (hcat : cat.Built)
    (hin : ∀ t ∈ c.tuples, schema.Inside cat t) :
    (∀ values, ¬ Admissible cat schema c.layout values → ∃ e,
      add cat values r = .error (.error e) r ∧ remove cat values r = .error (.error e) r ∧
      contains cat values r = .error (.error e) r) ∧
    (∀ values, Admissible cat schema c.layout values → ∃ t, Positions cat schema values t ∧
      add cat values r = addIndices cat t r ∧ remove cat values r = removeIndices cat t r ∧
      contains cat values r = containsIndices cat t r ∧
      Ends (add cat values) r (fun _ r' => Retupled r schema c (insert t c.tuples) r') ∧
      Ends (remove cat values) r (fun _ r' => Retupled r schema c (c.tuples \ {t}) r') ∧
      Ends (contains cat values) r fun found r' =>
        (found = true ↔ t ∈ c.tuples) ∧ Retupled r schema c c.tuples r') ∧
    ∀ types, types.length = c.layout.arity → schema.HasTypes cat types → ∃ vss ts,
      Relation.values cat types none r = .ok (vss.map .ok) r ∧
      (ts.Nodup ∧ ∀ t, t ∈ ts ↔ t ∈ c.tuples) ∧
      List.Forall₂ (Positions cat schema) vss ts ∧ vss.Nodup ∧
      ∀ vs, vs ∈ vss ↔ ∃ r', contains cat vs r = .ok true r' := by
  have hc := h.contents hopen
  refine ⟨fun values hrefused => ?_, fun values hadmissible => ?_, fun types harity htypes => ?_⟩
  · obtain ⟨e, hrefused⟩ := resolved_error hopen hcat hrefused
    exact ⟨e, bind_eq_error hrefused, bind_eq_error hrefused, bind_eq_error hrefused⟩
  · obtain ⟨t, hpositions, hvalid⟩ := (admissible_iff hcat).mp hadmissible
    have hresolved := resolved_eq hopen hcat hpositions hvalid
    exact ⟨t, hpositions, resolved_bind hopen hcat hpositions hvalid _,
      resolved_bind hopen hcat hpositions hvalid _, resolved_bind hopen hcat hpositions hvalid _,
      ends_bind hresolved (ends_addChecked hopen hc hvalid.fits),
      ends_bind hresolved (ends_removeChecked hopen hc hvalid.fits),
      ends_bind hresolved (ends_containsChecked hopen hc hvalid.fits)⟩
  · have hlisted : ∀ t ∈ c.listed, types.length = t.length ∧ schema.Inside cat t := fun t ht =>
      have ht := hc.mem_listed.mp ht
      ⟨harity.trans (valid_of_fits (c.fits_of_mem ht) (hin t ht)).arity.symm, hin t ht⟩
    obtain ⟨vss, hvss, hall⟩ := exists_decoded htypes hlisted
    have hbi : Relator.BiUnique (Positions cat schema) := biUnique_positions hcat
    refine ⟨vss, c.listed, ?_, ⟨hc.nodup_listed, fun t => hc.mem_listed⟩, hall,
      (List.rel_nodup hbi hall).mpr hc.nodup_listed, fun vs => ?_⟩
    · rw [values_eq hopen hc cat harity none, Option.elim_none, hvss]
    · rw [contains_eq_true_iff hopen hcat hc hin]
      constructor
      · intro hmem
        obtain ⟨n, hn⟩ := List.mem_iff_getElem?.mp hmem
        obtain ⟨t, ht, hpositions⟩ := exists_of_forall₂ hall hn
        exact ⟨t, hc.mem_listed.mp (List.mem_of_getElem? ht), hpositions⟩
      · rintro ⟨t, ht, hpositions⟩
        exact (List.rel_mem hbi hpositions hall).mpr (hc.mem_listed.mpr ht)

/-- A domain of two values gets a third one after a relation was opened that holds the second. The
relation still answers with that one, and has no bits for the third. -/
theorem reached_typed_grown : ∃ cat r schema c, cat.Built ∧ Reached r ∧
    r.stage = .opened schema c ∧ (∃ e, add cat [.word 5] r = .error (.error e) r) ∧
    (∃ r', contains cat [.word 9] r = .ok true r') ∧
    Relation.values cat [.word] none r = .ok [.ok [.word 9]] r := by
  let made : Domain UInt32 := ⟨"V", fun n => s!"{n}", {}⟩
  let narrow : Catalog := (((Catalog.enter {} (.words made)).2.add 0 (.word 7)).2.add 0 (.word 9)).2
  let cat : Catalog := (narrow.add 0 (.word 5)).2
  let schema : Schema := ⟨"own", ⟨["V0"], none, [[0]]⟩, [0]⟩
  have hmade : Domain.create "V" (fun n : UInt32 => s!"{n}") = .ok made := rfl
  have hnarrow : narrow.Built := ((Catalog.Built.empty.enter (.words hmade)).add 0 _).add 0 _
  have hcat : cat.Built := hnarrow.add 0 _
  have htwo : narrow.domain 0 = .words ⟨"V", made.canon, (made.numbering.push 7).push 9⟩ := by
    simp [narrow, made, Catalog.enter, Catalog.add, Catalog.domain, Universe.add, Domain.add,
      Numbering.add, Numbering.indexOf?, Numbering.push]
  have hthree : cat.domain 0 =
      .words ⟨"V", made.canon, ((made.numbering.push 7).push 9).push 5⟩ := by
    simp [cat, narrow, made, Catalog.enter, Catalog.add, Catalog.domain, Universe.add, Domain.add,
      Numbering.add, Numbering.indexOf?, Numbering.push]
  have hdomain : ∀ cat' : Catalog, schema.domain cat' 0 = cat'.domain 0 := fun _ => rfl
  have hbelow : 1 < (narrow.domain 0).size := by rw [htwo]; decide
  obtain ⟨r, c, hr, hopen, hsizes, htuples⟩ := exists_holding narrow schema false rfl
    ⟨["V0"], none, rfl⟩ rfl rfl (List.forall_mem_singleton.mpr (by rw [htwo]; decide)) [[1]]
    (List.forall_mem_singleton.mpr (.cons hbelow .nil))
  have hc := hr.contents hopen
  have hwidth : c.layout.width 0 = 1 := by
    rw [width_eq_bitsFor hc.layout hsizes (by decide), hdomain, htwo]
    decide +kernel
  have hpositions : Positions cat schema [.word 9] [1] :=
    ⟨rfl, forall_getElem?_singleton (by rw [hdomain, hthree]; rfl)⟩
  obtain ⟨hrefused, -, hvalues⟩ := reached_typed hr hopen hcat fun t ht => by
    rw [htuples] at ht
    obtain rfl := List.mem_singleton.mp ht
    exact forall_getElem?_singleton (by rw [hdomain, hthree]; decide)
  obtain ⟨e, hadd, -, -⟩ := hrefused [.word 5] fun hadmissible => by
    have hfits := hadmissible.fits 0 (.word 5) 2 rfl (by rw [hdomain, hthree]; rfl)
    rw [hwidth] at hfits
    exact absurd hfits (by decide)
  have htypes : schema.HasTypes cat [.word] :=
    forall_getElem?_singleton (by rw [hdomain, hthree]; rfl)
  obtain ⟨vss, ts, run, ⟨hnodup, hts⟩, hall, -, hcontains⟩ :=
    hvalues [.word] hc.arity_eq.symm htypes
  have hperm : ts.Perm [[1]] := (List.perm_ext_iff_of_nodup hnodup (List.nodup_singleton _)).mpr
    fun t => (hts t).trans (by rw [htuples]; rfl)
  obtain rfl := List.perm_singleton.mp hperm
  obtain ⟨vs, hvs, rfl⟩ : ∃ vs, Positions cat schema vs [1] ∧ vss = [vs] := by
    cases hall with
    | cons hvs hrest =>
        cases hrest
        exact ⟨_, hvs, rfl⟩
  obtain rfl := hvs.values_unique hpositions
  exact ⟨cat, r, schema, c, hcat, hr, hopen, ⟨e, hadd⟩,
    (hcontains _).mp (List.mem_singleton_self _), run⟩

end Relation

end Factbase
