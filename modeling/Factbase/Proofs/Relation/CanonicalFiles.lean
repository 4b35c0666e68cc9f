import Factbase.Proofs.Diagram.Alignment
import Factbase.Proofs.Relation.Directions
import Factbase.Proofs.Relation.Storing

/-!
# Files depend on what is stored only

The file of an open relation says nothing about how the relation came to its tuples. It is given by
the names of the slots, their widths, the order of their bits and the tuples themselves.

* `spelled_inj`: functions of the slots' bits that spell the same tuples are the same;
* `slots_eq_of_widths`, `aligned_of_levelled`: **relations of the same shape have the same slots and
  aligned managers**;
* `WrittenAs`: the bytes that an open relation writes;
* `canonical_texts`: **diagrams have the same text where they have the same values, and relations of
  the same shape have the same file where they have the same tuples.**
-/

namespace Factbase.Relation

open Diagram Text

/-! ## 1. Tuples and values -/

section Spelled

variable {slots : List (List Nat)} {value value' : Assignment → Bool}

/-- A tuple is spelled by the bits that spell it. -/
theorem map_number_mem_spelled
    (hdep : ∀ ρ ρ' : Assignment, (∀ v ∈ slots.flatten, ρ v = ρ' v) → value ρ = value ρ')
    {ρ : Assignment} : slots.map (number ρ) ∈ spelled slots value ↔ value ρ = true := by
  refine ⟨fun ⟨σ, hσ, htrue⟩ => ?_, fun htrue => ⟨ρ, rfl, htrue⟩⟩
  rwa [← hdep σ ρ (map_number_inj hσ)]

/-- **Functions of the slots' bits that spell the same tuples are the same.** -/
theorem spelled_inj
    (hdep : ∀ ρ ρ' : Assignment, (∀ v ∈ slots.flatten, ρ v = ρ' v) → value ρ = value ρ')
    (hdep' : ∀ ρ ρ' : Assignment, (∀ v ∈ slots.flatten, ρ v = ρ' v) → value' ρ = value' ρ') :
    spelled slots value = spelled slots value' ↔ ∀ ρ, value ρ = value' ρ := by
  refine ⟨fun same ρ => ?_, fun same => by rw [funext same]⟩
  rw [Bool.eq_iff_iff, ← map_number_mem_spelled hdep, same, map_number_mem_spelled hdep']

end Spelled

/-! ## 2. Shapes -/

section Shapes

variable {l l' : Layout} {m m' : Manager} (hl : l.Sound m) (hl' : l'.Sound m')
  (hwidths : l.slots.map List.length = l'.slots.map List.length)

include hl hl' hwidths

/-- Blocks of the same widths are the same, as they are consecutive. -/
theorem slots_eq_of_widths : l.slots = l'.slots ∧ m.numVars = m'.numVars := by
  have hlen : l.slots.flatten.length = l'.slots.flatten.length := by
    rw [List.length_flatten, List.length_flatten, hwidths]
  have hvars : m.numVars = m'.numVars := by
    rwa [hl.flat, hl'.flat, List.length_range', List.length_range'] at hlen
  exact ⟨List.eq_iff_flatten_eq.mpr ⟨by rw [hl.flat, hl'.flat, hvars], hwidths⟩, hvars⟩

end Shapes

section Files

variable {reverse : Bool} {r r' : Relation} {schema schema' : Schema} {c c' : Contents}

/-- **Relations of the same shape have aligned managers.** -/
theorem aligned_of_levelled (h : Levelled reverse r) (h' : Levelled reverse r')
    (hopen : r.stage = .opened schema c) (hopen' : r'.stage = .opened schema' c')
    (hgroups : schema.signature.groups = schema'.signature.groups)
    (hwidths : c.layout.slots.map List.length = c'.layout.slots.map List.length) :
    c.manager.Aligned c'.manager := by
  obtain ⟨hslots, hvars⟩ := slots_eq_of_widths (h.1.contents hopen).2.layout
    (h'.1.contents hopen').2.layout hwidths
  have horder := h.ofList_eq hopen
  rw [hslots, hvars, hgroups, h'.ofList_eq hopen'] at horder
  exact ⟨hvars, fun level => by rw [Except.ok.inj horder]⟩

/-- The bytes that an open relation writes, whatever folder it writes to and whatever files there
are, wherever a path leads to a file. -/
def WrittenAs (r : Relation) (data : ByteArray) : Prop :=
  ∀ (folder : Path) (files : Files) (address : Address),
    files.locate (folder.join (diagramFile r.name)) = .ok address →
    ∃ files', writeTo folder (r, files) = .ok () (r, files') ∧
      files'.read? (folder.join (diagramFile r.name)) = .ok data

/-- The text of a relation's file is its header and the body of its diagram. -/
theorem fileText_of_body {b : Body} (hbody : c.manager.body c.root = .ok b) :
    fileText schema c.root c.layout c.manager =
      .ok (Header.render schema.signature.names c.layout.slots ++ b.render) :=
  bind_eq_ok hbody rfl

/-- **An open relation is written as the bytes of its text.** -/
theorem writtenAs_of_body (hopen : r.stage = .opened schema c) (hc : c.Sound schema) {b : Body}
    (hbody : c.manager.body c.root = .ok b) :
    r.WrittenAs (Header.render schema.signature.names c.layout.slots ++ b.render).toUTF8 := by
  intro folder files address hlocate
  have hname : r.name = schema.name := by rw [name, hopen]
  have htext : fileText schema c.root c.layout c.manager = _ := fileText_of_body hbody
  rw [fileText_eq hbody] at htext
  rw [hname] at hlocate ⊢
  obtain ⟨files', run⟩ := exists_writeTo hopen hc hlocate
  refine ⟨files', run, ?_⟩
  rw [← Except.ok.inj htext]
  exact (of_writeTo_eq_ok hopen hbody run).2

end Files

/-! ## 3. Main result -/

/-- **Texts are canonical.** Two edges of well-formed managers with the same variables at the same
levels are written, and as the same text where they have the same value under every assignment, and
only there, whatever the managers were used for before and however they number their nodes. So two
relations that were opened with the same direction of bits, over slots of the same names, widths and
groups, are written as the same bytes where they have the same tuples, and only there. -/
theorem canonical_texts :
    (∀ {A B : Manager}, A.WellFormed → B.WellFormed → A.Aligned B →
      ∀ {f g : Edge}, A.Holds f → B.Holds g →
      ∃ b b', A.body f = .ok b ∧ B.body g = .ok b' ∧
        (b.render = b'.render ↔ ∀ ρ, A.eval ρ f = B.eval ρ g)) ∧
    ∀ {reverse : Bool} {r r' : Relation}, OpenedWith reverse r → OpenedWith reverse r' →
      ∀ {schema schema' : Schema} {c c' : Contents}, r.stage = .opened schema c →
      r'.stage = .opened schema' c' → schema.signature.names = schema'.signature.names →
      schema.signature.groups = schema'.signature.groups →
      c.layout.slots.map List.length = c'.layout.slots.map List.length →
      ∃ text text', fileText schema c.root c.layout c.manager = .ok text ∧
        fileText schema' c'.root c'.layout c'.manager = .ok text' ∧
        r.WrittenAs text.toUTF8 ∧ r'.WrittenAs text'.toUTF8 ∧
        (text.toUTF8 = text'.toUTF8 ↔ c.tuples = c'.tuples) := by
  refine ⟨fun hA hB hAB f g hf hg => Body.body_render_eq_iff hA hB hAB hf hg, ?_⟩
  intro reverse r r' h h' schema schema' c c' hopen hopen' hnames hgroups hwidths
  have hc := h.reached.contents hopen
  have hc' := h'.reached.contents hopen'
  obtain ⟨hslots, _⟩ := slots_eq_of_widths hc.layout hc'.layout hwidths
  have haligned := aligned_of_levelled h.levelled h'.levelled hopen hopen' hgroups hwidths
  obtain ⟨b, b', hbody, hbody', hiff⟩ :=
    Body.body_render_eq_iff hc.manager hc'.manager haligned hc.root hc'.root
  refine ⟨_, _, fileText_of_body hbody, fileText_of_body hbody', writtenAs_of_body hopen hc hbody,
    writtenAs_of_body hopen' hc' hbody', ?_⟩
  have htexts : (Header.render schema.signature.names c.layout.slots ++ b.render).toUTF8 =
      (Header.render schema'.signature.names c'.layout.slots ++ b'.render).toUTF8 ↔
        b.render = b'.render := by
    rw [hnames, hslots]
    exact String.toByteArray_inj.trans (String.append_right_inj _)
  have hdep : ∀ ρ ρ' : Assignment, (∀ v ∈ c'.layout.slots.flatten, ρ v = ρ' v) →
      c.manager.eval ρ c.root = c.manager.eval ρ' c.root := fun ρ ρ' agree =>
    hc.dependsOn ρ ρ' fun v hv => agree v (hslots ▸ List.mem_toFinset.mp hv)
  have hdep' : ∀ ρ ρ' : Assignment, (∀ v ∈ c'.layout.slots.flatten, ρ v = ρ' v) →
      c'.manager.eval ρ c'.root = c'.manager.eval ρ' c'.root := fun ρ ρ' agree =>
    hc'.dependsOn ρ ρ' fun v hv => agree v (List.mem_toFinset.mp hv)
  have htuples : c.tuples = spelled c'.layout.slots (c.manager.eval · c.root) := hslots ▸ rfl
  rw [htexts, hiff, htuples]
  exact (spelled_inj hdep hdep').symm

/-- Two relations that get the same two tuples in different orders are written as the same bytes,
and one that gets another tuple is written as other ones. -/
theorem canonical_texts_reordered : ∃ (r r' r'' : Relation) (schema : Schema) (c c' c'' : Contents)
    (text text'' : String), OpenedWith true r ∧ OpenedWith true r' ∧ OpenedWith true r'' ∧
    r.stage = .opened schema c ∧ r'.stage = .opened schema c' ∧ r''.stage = .opened schema c'' ∧
    c.tuples = {[0, 1], [1, 1]} ∧ c'.tuples = {[1, 1], [0, 1]} ∧ c''.tuples = {[0, 1]} ∧
    r.WrittenAs text.toUTF8 ∧ r'.WrittenAs text.toUTF8 ∧ r''.WrittenAs text''.toUTF8 ∧
    text.toUTF8 ≠ text''.toUTF8 ∧
    ∃ b b', c.manager.body c.root = .ok b ∧ c'.manager.body c'.root = .ok b' ∧
      (b.render = b'.render ↔ ∀ ρ, c.manager.eval ρ c.root = c'.manager.eval ρ c'.root) := by
  let cat : Catalog := ⟨#[.words ⟨"V", fun n => s!"{n}", ⟨#[7, 9], ∅⟩⟩]⟩
  let schema : Schema := ⟨"own", ⟨["V0", "V1"], none, [[0], [1]]⟩, [0, 0]⟩
  have hfill := exists_opened cat schema true rfl ⟨["V0", "V1"], none, rfl⟩ rfl rfl (by decide)
  obtain ⟨r, c, hr, hopen, hsizes, htuples⟩ := hfill [[0, 1], [1, 1]] (by decide)
  obtain ⟨r', c', hr', hopen', hsizes', htuples'⟩ := hfill [[1, 1], [0, 1]] (by decide)
  obtain ⟨r'', c'', hr'', hopen'', hsizes'', htuples''⟩ := hfill [[0, 1]] (by decide)
  have hc := hr.reached.contents hopen
  have hc' := hr'.reached.contents hopen'
  have hc'' := hr''.reached.contents hopen''
  have hwidths : c.layout.slots.map List.length = c'.layout.slots.map List.length := by
    rw [hc.layout.widths, hc'.layout.widths, hsizes, hsizes']
  have hwidths'' : c.layout.slots.map List.length = c''.layout.slots.map List.length := by
    rw [hc.layout.widths, hc''.layout.widths, hsizes, hsizes'']
  have haligned := aligned_of_levelled hr.levelled hr'.levelled hopen hopen' rfl hwidths
  obtain ⟨text, text', htext, _, hwritten, hwritten', hsame⟩ :=
    canonical_texts.2 hr hr' hopen hopen' rfl rfl hwidths
  obtain ⟨again, text'', hagain, _, _, hwritten'', hother⟩ :=
    canonical_texts.2 hr hr'' hopen hopen'' rfl rfl hwidths''
  obtain rfl := Except.ok.inj (htext.symm.trans hagain)
  have hset : c.tuples = {[0, 1], [1, 1]} := htuples.trans (Set.ext fun t => by simp)
  have hset' : c'.tuples = {[1, 1], [0, 1]} := htuples'.trans (Set.ext fun t => by simp)
  have hset'' : c''.tuples = {[0, 1]} := htuples''.trans (Set.ext fun t => by simp)
  rw [← hsame.mpr (by rw [hset, hset', Set.pair_comm])] at hwritten'
  refine ⟨r, r', r'', schema, c, c', c'', text, text'', hr, hr', hr'', hopen, hopen', hopen'', hset,
    hset', hset'', hwritten, hwritten', hwritten'', fun h => ?_,
    canonical_texts.1 hc.manager hc'.manager haligned hc.root hc'.root⟩
  have hmem : [1, 1] ∈ c''.tuples := hother.mp h ▸ hset ▸ Set.mem_insert_of_mem _ rfl
  rw [hset''] at hmem
  exact absurd (Set.mem_singleton_iff.mp hmem) (by decide)

end Factbase.Relation
