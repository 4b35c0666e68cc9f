import Factbase.Proofs.Relation.Filling

/-!
# Combining relations

Open relations are combined as sets of tuples, however differently they are laid out.

* `Compatible`: the slots' domains have the same names, and the slots the same widths;
* `mismatch?_eq_none_iff`: **the check lets exactly the compatible relations pass**;
* `ends_importFrom`: **the other relation's diagram is rebuilt with its tuples**;
* `ends_combined`, `combined_error`: what every combination comes to;
* `reached_combining`: union, intersection and difference of any two open relations that are
  reached.
-/

namespace Factbase.Relation

open Diagram

/-! ## 1. Compatibility -/

/-- Two open relations have the same number of slots, and slot by slot the names of the domains and
the widths agree. -/
structure Compatible (cat : Catalog) (here there : Schema × Layout) : Prop where
  names : here.1.domains.map (fun handle => (cat.domain handle).name) =
    there.1.domains.map fun handle => (cat.domain handle).name
  widths : here.2.slots.map List.length = there.2.slots.map List.length

theorem compareSlots_eq_none_iff {pairs : List ((String × Nat) × (String × Nat))} {slot : Nat} :
    compareSlots slot pairs = none ↔ ∀ p ∈ pairs, p.1 = p.2 := by
  induction pairs generalizing slot with
  | nil => simp [compareSlots]
  | cons p pairs ih =>
      obtain ⟨⟨here, hereWidth⟩, there, thereWidth⟩ := p
      rw [compareSlots, List.forall_mem_cons]
      split
      · rename_i hne
        simp [hne]
      · rename_i hname
        rw [ne_eq, not_not] at hname
        split
        · rename_i hne
          simp [hne]
        · rename_i hwidth
          rw [ne_eq, not_not] at hwidth
          rw [ih]
          simp [hname, hwidth]

/-- Lists of the same length are equal where they are element by element. -/
theorem forall_mem_zip_eq_iff {α : Type} : ∀ {xs ys : List α}, xs.length = ys.length →
    ((∀ p ∈ xs.zip ys, p.1 = p.2) ↔ xs = ys)
  | [], [], _ => by simp
  | x :: xs, y :: ys, h => by
      rw [List.zip_cons_cons, List.forall_mem_cons, forall_mem_zip_eq_iff (Nat.succ.inj h),
        List.cons.injEq]

section Compatibility

variable {cat : Catalog} {here there : Schema} {c d : Contents} (hc : c.Sound here)
  (hd : d.Sound there)

include hc in
/-- The shapes are the names of the domains and the widths. -/
theorem Contents.Sound.unzip_shapes : (slotShapes cat here c.layout).unzip =
    (here.domains.map (fun handle => (cat.domain handle).name),
      c.layout.slots.map List.length) := by
  have hlen : c.layout.slots.length = here.domains.length := hc.arity_eq
  unfold slotShapes
  rw [List.unzip_zip]
  rw [List.length_map, List.length_map, hlen]

include hc hd

/-- **The check lets exactly the compatible relations pass.** -/
theorem mismatch?_eq_none_iff : mismatch? cat (here, c.layout) (there, d.layout) = none ↔
    Compatible cat (here, c.layout) (there, d.layout) := by
  have hshapes : Compatible cat (here, c.layout) (there, d.layout) ↔
      slotShapes cat here c.layout = slotShapes cat there d.layout := by
    refine ⟨fun h => ?_, fun h => ?_⟩
    · unfold slotShapes
      rw [h.names, h.widths]
    · have hpair := congrArg List.unzip h
      rw [hc.unzip_shapes, hd.unzip_shapes] at hpair
      exact ⟨congrArg Prod.fst hpair, congrArg Prod.snd hpair⟩
  have hlength : ∀ {s : Schema} {e : Contents}, e.Sound s →
      (slotShapes cat s e.layout).length = e.layout.arity := fun he => by
    rw [slotShapes, List.length_zip, List.length_map, List.length_map, ← he.arity_eq]
    exact Nat.min_self _
  rw [hshapes, mismatch?]
  split
  · rename_i hne
    simp only [reduceCtorEq, false_iff]
    intro hsame
    exact hne ((hlength hc).symm.trans ((congrArg List.length hsame).trans (hlength hd)))
  · rename_i harity
    rw [ne_eq, not_not] at harity
    rw [compareSlots_eq_none_iff,
      forall_mem_zip_eq_iff ((hlength hc).trans (harity.trans (hlength hd).symm))]

end Compatibility

/-! ## 2. The other relation's tuples -/

/-- The variables of a relation have numbers of 32 bits where its nodes have. -/
theorem Contents.Sound.numVars_lt {schema : Schema} {c : Contents} (hc : c.Sound schema)
    (h : c.manager.Addressable) : c.manager.numVars < twoPow 31 := by
  obtain ⟨vs, hperm, hset⟩ := hc.layout.all
  have hcount := hset.length_lt_index hc.manager.toFounded
  have hindex := (hset.holds hc.manager.toFounded).2
  rw [hperm.length_eq, hc.layout.flat, List.length_range'] at hcount
  unfold Manager.Addressable at h
  omega

theorem Contents.Sound.numVars_lt_word {schema : Schema} {c : Contents} (hc : c.Sound schema)
    (h : c.manager.Addressable) : c.manager.numVars < twoPow 32 :=
  Nat.lt_trans (hc.numVars_lt h) (by decide)

theorem Contents.Sound.var_lt {schema : Schema} {c : Contents} (hc : c.Sound schema)
    (h : c.manager.Addressable) {v : Nat} (hv : c.manager.order.Allocated v) : v < twoPow 31 :=
  Nat.lt_of_le_of_lt hv.2 (hc.numVars_lt h)

/-- There the sets of variables are those of their words. -/
theorem Contents.Sound.varSetOfWords_eq {schema : Schema} {c : Contents} (hc : c.Sound schema)
    (h : c.manager.Addressable) {vs : List Nat} (hvs : ∀ v ∈ vs, c.manager.order.Allocated v) :
    Manager.varSetOfWords vs = Manager.varCube vs :=
  Manager.varSetOfWords_eq fun v hv => hc.var_lt h (hvs v hv)

section Importing

variable {r other : Relation} {schema otherSchema : Schema} {c d : Contents} {cat : Catalog}
  (hopen : r.stage = .opened schema c) (hother : other.stage = .opened otherSchema d)
  (hc : c.Sound schema) (hd : d.Sound otherSchema)

include hopen hother

omit hopen in
theorem openContents_eq : other.openContents = .ok (otherSchema, d) := by
  unfold openContents
  rw [hother]

theorem importFrom_eq_error {found : Mismatch}
    (h : mismatch? cat (schema, c.layout) (otherSchema, d.layout) = some found) :
    importFrom cat other r =
      .error (.error ⟨schema.name, .incompatible otherSchema.name found⟩) r := by
  have hname : r.name = schema.name := by rw [name, hopen]
  unfold importFrom
  rw [bind_of_ok (opening_eq hopen), openContents_eq hother]
  dsimp only
  rw [pure_bind, h]
  show problem (.incompatible otherSchema.name found) r = _
  rw [problem, hname]

include hc hd

/-- **The other relation's diagram is rebuilt with its tuples.** -/
theorem ends_importFrom (h : Compatible cat (schema, c.layout) (otherSchema, d.layout))
    (haddr : d.manager.Addressable) : Ends (importFrom cat other) r fun f r' =>
      ∃ m, r' = r.withContents schema { c with manager := m } ∧ c.manager.Next m ∧ m.Holds f ∧
        ∀ ρ, m.eval ρ f = true ↔ c.layout.read ρ ∈ d.tuples := by
  have hlen : d.layout.slots.flatten.length = c.layout.slots.flatten.length := by
    rw [List.length_flatten, List.length_flatten, h.widths]
  have hremap : ∀ v ∈ d.layout.variables, ∃ w,
      (counterparts c.layout d.layout)[v]? = some w ∧ c.manager.order.Allocated w := by
    intro v hv
    obtain ⟨i, hi, rfl⟩ := List.mem_iff_getElem.mp (List.mem_toFinset.mp hv)
    have hget := getElem?_ofList_zip hd.layout.nodup hlen (List.mem_iff_getElem.mpr
      ⟨i, by rw [List.length_zip]; omega, List.getElem_zip⟩)
    exact ⟨_, hget, hc.layout.mem_flatten.mp (List.getElem_mem _)⟩
  have hread : ∀ ρ, d.layout.read (Body.carried ((counterparts c.layout d.layout)[·]?) ρ) =
      c.layout.read ρ := fun ρ =>
    map_number_eq_of_map h.widths.symm (map_carried hd.layout.nodup hlen ρ)
  obtain ⟨b, hbody, hends⟩ := Manager.ends_readBody_body hd.manager hd.root hd.dependsOn haddr
    (hd.numVars_lt_word haddr) (fun _ _ => hd.var_lt haddr) hc.manager hremap
  have hlines : bodyLines d = .ok ((Text.splitLines b.render.toList).map some) := by
    unfold bodyLines
    rw [hbody]
    rfl
  unfold importFrom
  refine ends_bind (opening_eq hopen) ?_
  dsimp only
  rw [openContents_eq hother]
  simp only [pure_bind]
  rw [(mismatch?_eq_none_iff hc hd).mpr h, hlines]
  dsimp only
  refine Ends.bind (ends_onManager hopen hends)
    fun result r' ⟨m, hr', n, g, hresult, hg, hval⟩ => ?_
  subst hresult
  refine ends_pure ⟨m, hr', n, hg, fun ρ => ?_⟩
  rw [hval, ← hd.read_mem_iff, hread]

/-! ## 3. Combinations -/

variable {act : Edge → Edge → Op Edge}

omit hc hd in
/-- Relations that are not compatible are not combined, and the first one is as it was. -/
theorem combined_eq_error {found : Mismatch}
    (h : mismatch? cat (schema, c.layout) (otherSchema, d.layout) = some found) :
    (do let f ← importFrom cat other; update fun root _ => act root f : RelationM Unit) r =
      .error (.error ⟨schema.name, .incompatible otherSchema.name found⟩) r :=
  bind_eq_error (importFrom_eq_error hopen hother h)

/-- **A combination of diagrams combines the tuples**, where it is true exactly on those of a
set. -/
theorem ends_combined (h : Compatible cat (schema, c.layout) (otherSchema, d.layout))
    (haddr : d.manager.Addressable) (op : Bool → Bool → Bool)
    (hact : ∀ m e f, m.WellFormed → m.Holds e → m.Holds f →
      Manager.Makes (act e f) m fun ρ => op (m.eval ρ e) (m.eval ρ f))
    {X : Set (List Nat)} (hX : X ⊆ c.tuples ∪ d.tuples)
    (hop : ∀ x y t, (x = true ↔ t ∈ c.tuples) → (y = true ↔ t ∈ d.tuples) →
      (op x y = true ↔ t ∈ X)) :
    Ends (do let f ← importFrom cat other; update fun root _ => act root f : RelationM Unit) r
      fun _ r' => Retupled r schema c X r' := by
  have hfits : ∀ t ∈ X, c.layout.Fits t := fun t ht => by
    rcases hX ht with ht | ht
    · exact c.fits_of_mem ht
    · exact (d.fits_of_mem ht).of_widths h.widths.symm
  refine (ends_importFrom hopen hother hc hd h haddr).bind fun f r' ⟨m, hr', n, hf, hval⟩ => ?_
  subst hr'
  have hc' : Contents.Sound schema { c with manager := m } := hc.next n (n.holds hc.root)
  refine (ends_update rfl hc' (hact m c.root f n.1 hc'.root hf)).mono fun _ r'' hr'' => ?_
  have hspelled : {t | ∃ ρ, c.layout.read ρ = t ∧ op (m.eval ρ c.root) (m.eval ρ f) = true} = X :=
    hc'.layout.spelled_eq hfits fun ρ => hop _ _ _
      (by rw [n.eval_eq hc.manager hc.root, hc.read_mem_iff]) (hval ρ)
  rwa [hspelled] at hr''

theorem ends_unionWith (h : Compatible cat (schema, c.layout) (otherSchema, d.layout))
    (haddr : d.manager.Addressable) :
    Ends (unionWith cat other) r fun _ r' => Retupled r schema c (c.tuples ∪ d.tuples) r' :=
  ends_combined hopen hother hc hd h haddr or
    (fun _ _ _ hm he hf => Manager.makes_disj hm he hf) (Set.Subset.refl _)
    fun x y t hx hy => by rw [Bool.or_eq_true, hx, hy, Set.mem_union]

theorem ends_intersectWith (h : Compatible cat (schema, c.layout) (otherSchema, d.layout))
    (haddr : d.manager.Addressable) :
    Ends (intersectWith cat other) r fun _ r' => Retupled r schema c (c.tuples ∩ d.tuples) r' :=
  ends_combined hopen hother hc hd h haddr and
    (fun _ _ _ hm he hf => Manager.makes_conj hm he hf) (fun _ ht => Or.inl ht.1)
    fun x y t hx hy => by rw [Bool.and_eq_true, hx, hy, Set.mem_inter_iff]

theorem ends_subtract (h : Compatible cat (schema, c.layout) (otherSchema, d.layout))
    (haddr : d.manager.Addressable) :
    Ends (subtract cat other) r fun _ r' => Retupled r schema c (c.tuples \ d.tuples) r' :=
  ends_combined hopen hother hc hd h haddr (fun x y => x && !y)
    (fun _ _ _ hm he hf => Manager.makes_diff hm he hf) (fun _ ht => Or.inl ht.1)
    fun x y t hx hy => by
      rw [Bool.and_eq_true, Bool.not_eq_true', hx, ← Bool.not_eq_true, hy, Set.mem_sdiff]

end Importing

/-! ## 4. Main result -/

/-- **Combining relations.** Any two open relations that are reached are combined, with the union,
the intersection and the difference of their tuples, where their slots agree in the names of the
domains and in the widths; edges of the other one are codes of 32 bits. Where they do not agree,
each combination is refused and changes nothing. -/
theorem reached_combining {r other : Relation} (hr : Reached r) (hother : Reached other)
    {schema otherSchema : Schema} {c d : Contents} (hopen : r.stage = .opened schema c)
    (hopen' : other.stage = .opened otherSchema d) (cat : Catalog) :
    (Compatible cat (schema, c.layout) (otherSchema, d.layout) → d.manager.Addressable →
      (∃ c', unionWith cat other r = .ok () (r.withContents schema c') ∧ c'.layout = c.layout ∧
        c'.tuples = c.tuples ∪ d.tuples) ∧
      (∃ c', intersectWith cat other r = .ok () (r.withContents schema c') ∧
        c'.layout = c.layout ∧ c'.tuples = c.tuples ∩ d.tuples) ∧
      ∃ c', subtract cat other r = .ok () (r.withContents schema c') ∧ c'.layout = c.layout ∧
        c'.tuples = c.tuples \ d.tuples) ∧
    (¬ Compatible cat (schema, c.layout) (otherSchema, d.layout) → ∃ found,
      unionWith cat other r =
        .error (.error ⟨schema.name, .incompatible otherSchema.name found⟩) r ∧
      intersectWith cat other r =
        .error (.error ⟨schema.name, .incompatible otherSchema.name found⟩) r ∧
      subtract cat other r =
        .error (.error ⟨schema.name, .incompatible otherSchema.name found⟩) r) := by
  have hc := hr.contents hopen
  have hd := hother.contents hopen'
  refine ⟨fun h haddr => ⟨?_, ?_, ?_⟩, fun h => ?_⟩
  · obtain ⟨_, _, run, c', rfl, _, hlayout, htuples⟩ := ends_unionWith hopen hopen' hc hd h haddr
    exact ⟨c', run, hlayout, htuples⟩
  · obtain ⟨_, _, run, c', rfl, _, hlayout, htuples⟩ :=
      ends_intersectWith hopen hopen' hc hd h haddr
    exact ⟨c', run, hlayout, htuples⟩
  · obtain ⟨_, _, run, c', rfl, _, hlayout, htuples⟩ := ends_subtract hopen hopen' hc hd h haddr
    exact ⟨c', run, hlayout, htuples⟩
  · obtain ⟨found, hfound⟩ := Option.ne_none_iff_exists'.mp fun hnone =>
      h ((mismatch?_eq_none_iff hc hd).mp hnone)
    exact ⟨found, combined_eq_error hopen hopen' hfound, combined_eq_error hopen hopen' hfound,
      combined_eq_error hopen hopen' hfound⟩

/-- Two relations over a domain of four values, of which the second one has its two bits in the
opposite order, are united, and neither is combined with a relation over another domain. -/
theorem reached_combining_pair : ∃ cat r other apart schema otherSchema apartSchema c d e,
    Reached r ∧ Reached other ∧ Reached apart ∧ r.stage = .opened schema c ∧
    other.stage = .opened otherSchema d ∧ apart.stage = .opened apartSchema e ∧
    c.layout.levels c.manager 0 = .ok [0, 1] ∧ d.layout.levels d.manager 0 = .ok [1, 0] ∧
    c.tuples = {[1]} ∧ d.tuples = {[2]} ∧
    Compatible cat (schema, c.layout) (otherSchema, d.layout) ∧ d.manager.Addressable ∧
    (∃ c', unionWith cat other r = .ok () (r.withContents schema c') ∧ c'.layout = c.layout ∧
      c'.tuples = {[1], [2]}) ∧
    ¬ Compatible cat (schema, c.layout) (apartSchema, e.layout) ∧
    ∃ found, unionWith cat apart r =
      .error (.error ⟨schema.name, .incompatible apartSchema.name found⟩) r := by
  let cat : Catalog := ⟨#[.words ⟨"V", fun n => s!"{n}", ⟨#[7, 9, 5, 3], ∅⟩⟩,
    .words ⟨"W", fun n => s!"{n}", ⟨#[7, 9, 5, 3], ∅⟩⟩]⟩
  let own : Schema := ⟨"own", ⟨["V0"], none, [[0]]⟩, [0]⟩
  let like : Schema := ⟨"like", ⟨["V0"], none, [[0]]⟩, [0]⟩
  let unlike : Schema := ⟨"unlike", ⟨["W0"], none, [[0]]⟩, [1]⟩
  obtain ⟨r, c, hforward, hopen, hfresh, htuples⟩ := exists_opened cat own false rfl
    ⟨["V0"], none, rfl⟩ rfl rfl (by decide) [[1]] (by decide)
  obtain ⟨other, d, hbackward, hopen', hfresh', htuples'⟩ := exists_opened cat like true rfl
    ⟨["V0"], none, rfl⟩ rfl rfl (by decide) [[2]] (by decide)
  obtain ⟨apart, e, hapart, hopen'', _⟩ := exists_holding cat unlike false rfl
    ⟨["W0"], none, rfl⟩ rfl rfl (by decide) [[0]] (by decide)
  have hr := hforward.reached
  have hother := hbackward.reached
  have hd := hother.contents hopen'
  have hc1 : c.tuples = {[1]} := htuples.trans (Set.ext fun _ => List.mem_singleton)
  have hd2 : d.tuples = {[2]} := htuples'.trans (Set.ext fun _ => List.mem_singleton)
  have hlike : Compatible cat (own, c.layout) (like, d.layout) := by
    refine ⟨rfl, ?_⟩
    rw [(hr.contents hopen).layout.widths, hd.layout.widths, hfresh, hfresh']
    rfl
  have hunlike : ¬ Compatible cat (own, c.layout) (unlike, e.layout) := fun h => by
    have hnames : ["V"] = ["W"] := h.names
    exact absurd hnames (by decide)
  have haddr : d.manager.Addressable :=
    addressable_of_sizes hd (by rw [hfresh']; decide +kernel)
  obtain ⟨found, hrefused, -⟩ := (reached_combining hr hapart hopen hopen'' cat).2 hunlike
  obtain ⟨c', run, hlayout, hunion⟩ :=
    ((reached_combining hr hother hopen hopen' cat).1 hlike haddr).1
  rw [hc1, hd2] at hunion
  exact ⟨cat, r, other, apart, own, like, unlike, c, d, e, hr, hother, hapart, hopen, hopen',
    hopen'', hforward.levels_pair hopen rfl hfresh, hbackward.levels_pair hopen' rfl hfresh', hc1,
    hd2, hlike, haddr, ⟨c', run, hlayout, hunion⟩, hunlike, found, hrefused⟩

end Factbase.Relation
