import Factbase.Proofs.Files
import Factbase.Proofs.Relation.Filling
import Factbase.Proofs.Relation.Fitting
import Factbase.Proofs.Relation.Headers

/-!
# Relations in files

What an open relation writes into a file is read by a described relation with the same slots,
whatever order it lists them in and however it lays them out.

* `byteLines_fileText`: the lines of a relation's file;
* `writeTo_eq`, `save_eq_ok`: **writing leaves the relation as it is**, saving closes it as well;
* `load_of_header`, `load_of_contents`: what loading comes to;
* `load_of_accommodates`, `load_of_not_accommodates`: **whether every slot is wide enough decides
  whether a file is loaded**;
* `reached_stored`: **a relation that is loaded has the saved tuples of its domains**, and is
  refused where a slot has become narrower.
-/

namespace Factbase.Relation

open Diagram Text

/-! ## 1. The text of a file -/

/-- The fields of the lines of a relation's file. -/
def fileFields (schema : Schema) (layout : Layout) (b : Body) : List (List (List Char)) :=
  Header.fields schema.signature.names layout.slots ++ b.fields

section Texts

variable {schema : Schema} {c : Contents} {b : Body}

theorem fileText_eq (h : c.manager.body c.root = .ok b) :
    fileText schema c.root c.layout c.manager =
      .ok (String.ofList (unlines '\n' ((fileFields schema c.layout b).map spaced))) := by
  have htext : Header.render schema.signature.names c.layout.slots ++ b.render =
      String.ofList (unlines '\n' ((fileFields schema c.layout b).map spaced)) := by
    rw [← String.toList_inj, String.toList_append, String.toList_ofList, Header.toList_render,
      b.toList_render, fileFields, List.map_append]
    exact List.flatMap_append.symm
  rw [fileText, h, ← htext]
  rfl

section Written

variable (hw : Header.Written schema.signature.names c.layout.slots) (b : Body)

include hw

/-- Every field is a word. -/
theorem word_fileFields : ∀ fields ∈ fileFields schema c.layout b, ∀ cs ∈ fields,
    Word cs ∧ Ascii cs := by
  intro fields hfields cs hcs
  rcases List.mem_append.mp hfields with hfields | hfields
  · exact hw.word_fields fields hfields cs hcs
  · obtain ⟨i, rfl⟩ := b.numeric_fields fields hfields cs hcs
    exact ⟨word_toString i, ascii_toString i⟩

theorem ascii_fileFields : ∀ line ∈ (fileFields schema c.layout b).map spaced, Ascii line :=
  List.forall_mem_map.mpr fun fields hfields =>
    ascii_spaced fun cs hcs => (word_fileFields hw b fields hfields cs hcs).2

theorem unbroken_fileFields : ∀ line ∈ (fileFields schema c.layout b).map spaced,
    Unbroken '\n' '\r' line :=
  List.forall_mem_map.mpr fun fields hfields =>
    unbroken_spaced fun cs hcs => (word_fileFields hw b fields hfields cs hcs).1

/-- **The lines of a relation's file.** -/
theorem byteLines_fileText :
    byteLines (String.ofList (unlines '\n' ((fileFields schema c.layout b).map spaced))).toUTF8 =
      ((Header.fields schema.signature.names c.layout.slots).map spaced).map some ++
        (splitLines b.render.toList).map some := by
  rw [byteLines_unlines (ascii_fileFields hw b) (unbroken_fileFields hw b), b.splitLines_render,
    fileFields, List.map_append, List.map_append]

end Written

end Texts

/-! ## 2. Writing -/

section Writing

variable {r : Relation} {schema : Schema} {c : Contents} (hopen : r.stage = .opened schema c)

/-- The slots of an open relation can be written. -/
theorem Contents.Sound.written (hc : c.Sound schema)
    (harity : schema.domains.length = schema.signature.arity) (hproper : schema.signature.Proper)
    (haddr : c.manager.Addressable) :
    Header.Written schema.signature.names c.layout.slots where
  nodup := hproper.nodup
  wellNamed := hproper.wellNamed
  length := hc.arity_eq.trans harity
  distinct := hc.layout.nodup
  small v hv := by
    have hle : v ≤ c.manager.numVars := (hc.layout.mem_flatten.mp hv).2
    have hlt := hc.numVars_lt haddr
    have hmost : twoPow 31 ≤ NumeralRange.word32.most := by decide
    omega
  narrow vars hvars := Nat.le_trans (hc.layout.length_le hvars) (by decide)

include hopen

/-- **Writing leaves the relation as it is.** -/
theorem writeTo_eq {text : String} (htext : fileText schema c.root c.layout c.manager = .ok text)
    (folder : Path) (files : Files) :
    writeTo folder (r, files) =
      writeFile (folder.join (diagramFile schema.name)) text (r, files) := by
  unfold writeTo
  rw [bind_of_ok (onRelation_eq_ok (opening_eq hopen) files)]
  dsimp only
  rw [bind_of_ok (onRelation_eq_ok (onManager_ask_eq hopen htext) files)]

/-- Whatever the relation holds, it is written wherever a path leads to a file. -/
theorem exists_writeTo (hc : c.Sound schema) {folder : Path} {files : Files} {address : Address}
    (hlocate : files.locate (folder.join (diagramFile schema.name)) = .ok address) :
    ∃ files₁, writeTo folder (r, files) = .ok () (r, files₁) := by
  obtain ⟨ids, hbody, _, _⟩ := Body.exists_body hc.manager hc.root hc.dependsOn
  have htext : fileText schema c.root c.layout c.manager = _ := fileText_eq hbody
  generalize unlines '\n' _ = text at htext
  refine ⟨⟨files.entries.insert address (String.ofList text).toUTF8⟩, ?_⟩
  rw [writeTo_eq hopen htext, writeFile, Files.writeText?, Files.write?, hlocate]
  rfl

/-- A relation that was written is as it was, and the file has its text. -/
theorem of_writeTo_eq_ok {b : Body} (hbody : c.manager.body c.root = .ok b) {folder : Path}
    {files files₁ : Files} {r₁ : Relation} (h : writeTo folder (r, files) = .ok () (r₁, files₁)) :
    r₁ = r ∧ files₁.read? (folder.join (diagramFile schema.name)) =
      .ok (String.ofList (unlines '\n' ((fileFields schema c.layout b).map spaced))).toUTF8 := by
  rw [writeTo_eq hopen (fileText_eq hbody), writeFile] at h
  cases hwrite : files.writeText? (folder.join (diagramFile schema.name))
    (String.ofList (unlines '\n' ((fileFields schema c.layout b).map spaced))) with
  | error error => rw [hwrite] at h; cases h
  | ok files' =>
      rw [hwrite] at h
      obtain ⟨_, hstate⟩ := EStateM.Result.ok.inj h
      obtain ⟨rfl, rfl⟩ := Prod.mk.inj hstate
      exact ⟨rfl, Files.read?_of_write? hwrite⟩

/-- Saving writes the same file and closes. -/
theorem save_eq_ok {folder : Path} {files files₁ : Files}
    (h : writeTo folder (r, files) = .ok () (r, files₁)) :
    save folder (r, files) = .ok () ({ r with stage := .closed schema }, files₁) := by
  unfold save
  rw [bind_of_ok h]
  simp only [onRelation, close, hopen]

end Writing

/-! ## 3. Loading -/

/-- What the user is told while loading. -/
def loadWarnings (p : Prepared) (path : Path) (widened : List (Nat × Nat × Nat))
    (dropped : Bool) : List Warning :=
  p.warnings ++ widened.map (fun (slot, saved, now) => .widened p.schema.name slot saved now) ++
    if dropped then [.dropped p.schema.name path.text] else []

/-- There is a warning about tuples only where some are dropped. -/
theorem mem_loadWarnings {p : Prepared}
    (hquiet : ∀ relation text, Warning.dropped relation text ∉ p.warnings) {path : Path}
    {widened : List (Nat × Nat × Nat)} {dropped : Bool} {relation text : String} :
    Warning.dropped relation text ∈ loadWarnings p path widened dropped ↔
      relation = p.schema.name ∧ text = path.text ∧ dropped = true := by
  have hwidened : Warning.dropped relation text ∉ widened.map (fun (slot, saved, now) =>
      .widened p.schema.name slot saved now) := fun h => by
    obtain ⟨_, _, hsame⟩ := List.mem_map.mp h
    cases hsame
  rw [loadWarnings, List.mem_append, List.mem_append,
    or_iff_right (not_or.mpr ⟨hquiet _ _, hwidened⟩)]
  cases dropped <;> simp

section Loading

variable {cat : Catalog} {env : Environment} {r : Relation} {p : Prepared} {files : Files}
  {folder : Path} {data : ByteArray} (hp : r.prepare cat env = .ok p)
  (hread : files.read? (folder.join (diagramFile p.schema.name)) = .ok data)

include hp hread

/-- A header that is refused leaves the relation as it is. -/
theorem load_of_header {problem : HeaderProblem}
    (hheader : Header.read p.schema.signature.names (p.layout.slots.map List.length)
      (byteLines data) = .error (.format problem)) :
    load cat env files folder r = .ok ⟨.error ⟨p.schema.name,
      .format (folder.join (diagramFile p.schema.name)).text problem⟩, p.warnings ++ []⟩ r := by
  simp only [load, hp, hread, hheader]

/-- Contents that are read open the relation. -/
theorem load_of_contents {fileVars : List (List Nat)} {lines : List (Option (List Char))}
    (hheader : Header.read p.schema.signature.names (p.layout.slots.map List.length)
      (byteLines data) = .ok (fileVars, lines)) {root : Edge} {dropped : Bool} {m : Manager}
    (hcontents : readContents p.layout (fit p.layout fileVars) lines p.manager =
      .ok (.ok (root, dropped)) m) :
    load cat env files folder r =
      .ok ⟨.ok (), loadWarnings p (folder.join (diagramFile p.schema.name))
        (fit p.layout fileVars).widened dropped⟩
      (r.withContents p.schema ⟨m, root, p.layout⟩) := by
  simp only [load, hp, hread, hheader, hcontents]
  rfl

end Loading

/-! ## 4. What is loaded -/

/-- Every slot is at least as wide over the present sizes of its domain as the slot of its name is
in a layout. -/
def Schema.Accommodates (cat : Catalog) (schema saved : Schema) (layout : Layout) : Prop :=
  ∀ name ∈ schema.signature.names, layout.width (saved.signature.names.idxOf name) ≤
    bitsFor (schema.domain cat (schema.signature.names.idxOf name)).size

section Widths

variable {cat : Catalog} {schema saved : Schema} {l layout : Layout} {m : Manager}
  (hl : l.Sound m) (hsizes : l.sizes = schema.sizes cat)
  (harity : schema.domains.length = schema.signature.arity)

include hl hsizes harity

/-- The slots are as wide as those of the file. -/
theorem accommodates_iff (hnodup : schema.signature.names.Nodup) :
    schema.Accommodates cat saved layout ↔
      Roomy l.slots (Signature.rearranged saved.signature.names schema.signature.names
        layout.slots) := by
  have hlen := length_slots_eq hl hsizes harity
  conv_rhs => rw [← Signature.rearranged_self hnodup hlen]
  rw [Roomy, Signature.rearranged, Signature.rearranged, List.forall₂_map_left_iff,
    List.forall₂_map_right_iff, List.forall₂_same]
  refine forall₂_congr fun name hname => ?_
  rw [← width_eq_bitsFor hl hsizes (by rw [harity]; exact List.idxOf_lt_length_iff.mpr hname)]
  exact Iff.rfl

end Widths

section Stored

variable {cat : Catalog} {env : Environment} {schema : Schema} {c : Contents}
  (hw : Header.Written schema.signature.names c.layout.slots) {r : Relation} {p : Prepared}
  (hp : r.prepare cat env = .ok p) (hl : p.layout.Sound p.manager)
  (hsizes : p.layout.sizes = p.schema.sizes cat)
  (harity : p.schema.domains.length = p.schema.signature.arity)
  (hperm : p.schema.signature.names.Perm schema.signature.names) {b : Body} {files : Files}
  {folder : Path} {data : ByteArray}
  (hread : files.read? (folder.join (diagramFile p.schema.name)) = .ok data)
  (hlines : byteLines data =
    ((Header.fields schema.signature.names c.layout.slots).map spaced).map some ++
      (splitLines b.render.toList).map some)

include hw hp hl hsizes harity hperm hread hlines

/-- **Slots that are wide enough get what the file spells over their domains**, and nothing is
dropped silently. -/
theorem load_of_accommodates (hm : p.manager.WellFormed) (hb : b.Proper)
    (htested : ∀ line ∈ b.lines, line.var ∈ c.layout.slots.flatten)
    (hroom : p.schema.Accommodates cat schema c.layout) :
    let saved := spelled (Signature.rearranged schema.signature.names p.schema.signature.names
      c.layout.slots) b.value
    ∃ widened dropped c', load cat env files folder r =
        .ok ⟨.ok (), loadWarnings p (folder.join (diagramFile p.schema.name)) widened dropped⟩
          (r.withContents p.schema c') ∧
      c'.tuples = {t ∈ saved | p.schema.Inside cat t} ∧
      (dropped = true ↔ ∃ t ∈ saved, ¬ p.schema.Inside cat t) := by
  intro saved
  have hwidths : (p.layout.slots.map List.length).length = p.schema.signature.names.length := by
    rw [List.length_map, length_slots_eq hl hsizes harity]
  have hroomy := (accommodates_iff hl hsizes harity (hperm.nodup_iff.mpr hw.nodup)).mp hroom
  have hheader := hw.read_eq hperm ((splitLines b.render.toList).map some) hwidths
    (roomy_iff.mp hroomy)
  rw [← hlines] at hheader
  have hflat := (Signature.perm_rearranged hw.nodup hperm hw.length).flatten
  obtain ⟨result, m, run, n, root, dropped, rfl, hroot, hval, hdropped⟩ :=
    ends_readContents_spelled hroomy (hflat.nodup_iff.mpr hw.distinct) hm hl hb.spelledBy_render
      hb.graph fun line hline => hflat.mem_iff.mpr (htested line hline)
  refine ⟨_, dropped, _, load_of_contents hp hread hheader run, ?_, ?_⟩
  · simp only [← inside_iff hsizes]
    exact (hl.next n).spelled_eq (fun t ht => fits_of_spelled hroomy ht.1) hval
  · simp only [hdropped, inside_iff hsizes]
    exact Iff.rfl

/-- **Where a slot has become narrower, the file is refused.** -/
theorem load_of_not_accommodates (hnarrow : ¬ p.schema.Accommodates cat schema c.layout) :
    ∃ problem, load cat env files folder r = .ok ⟨.error ⟨p.schema.name,
      .format (folder.join (diagramFile p.schema.name)).text problem⟩, p.warnings ++ []⟩ r := by
  rw [accommodates_iff hl hsizes harity (hperm.nodup_iff.mpr hw.nodup), roomy_iff] at hnarrow
  obtain ⟨name, saved, available, hheader⟩ :=
    hw.read_tooWide hperm ((splitLines b.render.toList).map some)
      (by rw [List.length_map, length_slots_eq hl hsizes harity]) hnarrow
  rw [← hlines] at hheader
  exact ⟨_, load_of_header hp hread hheader⟩

end Stored

/-! ## 5. Main result -/

section Described

variable {r : Relation} {schema : Schema} (hr : Reached r)

include hr

/-- A relation that is reached has a domain for every slot. -/
theorem Reached.arity_eq_of_bound (hbound : r.stage = .bound schema) :
    schema.domains.length = schema.signature.arity := hr.sound.arity_of_bound hbound

theorem Reached.arity_eq_of_opened {c : Contents} (hopen : r.stage = .opened schema c) :
    schema.domains.length = schema.signature.arity := (hr.sound.contents hopen).1

end Described

/-- **Saving and loading.** What an open relation that is reached writes into a folder is loaded by
any described relation of the same name whose signature has the same slots, in whatever order it
lists them and lays them out and over whatever domains. Where every slot is at least as wide as it
was, the relation that is loaded has the tuples that were saved, in its order of the slots, whose
indices are all below the present sizes of its domains; there is a warning exactly where a tuple is
left out. Where a slot has become narrower, the file is refused and the relation stays as it is.
Writing leaves the relation that is written as it is, and saving also closes it. Edges of the
relation that is written are codes of 32 bits. -/
theorem reached_stored {r r' : Relation} (hr : Reached r) (hr' : Reached r')
    {schema schema' : Schema} {c : Contents} (hopen : r.stage = .opened schema c)
    (hbound : r'.stage = .bound schema') (hname : schema'.name = schema.name)
    (hcreated : schema.signature.Created) (hcreated' : schema'.signature.Created)
    (hperm : schema'.signature.names.Perm schema.signature.names)
    (haddr : c.manager.Addressable)
    (hconfig : ∀ config, r'.config = some config → config.Valid) {cat : Catalog}
    (hsizes : ∀ handle ∈ schema'.domains, (cat.domain handle).size ≤ twoPow 63)
    (env : Environment) {folder : Path} {files files₁ : Files} {r₁ : Relation}
    (hwrite : writeTo folder (r, files) = .ok () (r₁, files₁)) :
    let path := folder.join (diagramFile schema.name)
    let arrange := Signature.rearranged (α := Nat) schema.signature.names schema'.signature.names
    r₁ = r ∧
    save folder (r, files) = .ok () ({ r with stage := .closed schema }, files₁) ∧
    (schema'.Accommodates cat schema c.layout → ∃ warnings c',
      load cat env files₁ folder r' = .ok ⟨.ok (), warnings⟩ (r'.withContents schema' c') ∧
      c'.tuples = {t ∈ arrange '' c.tuples | schema'.Inside cat t} ∧
      ∀ relation text, .dropped relation text ∈ warnings ↔
        relation = schema.name ∧ text = path.text ∧
          ∃ t ∈ c.tuples, ¬ schema'.Inside cat (arrange t)) ∧
    (¬ schema'.Accommodates cat schema c.layout → ∃ warnings problem,
      load cat env files₁ folder r' =
        .ok ⟨.error ⟨schema.name, .format path.text problem⟩, warnings⟩ r') := by
  have hc := hr.contents hopen
  have hw := hc.written (hr.arity_eq_of_opened hopen) hcreated.proper haddr
  obtain ⟨b, hbody, hproper, htested, hsaved⟩ :=
    exists_saved hc schema.signature.names schema'.signature.names haddr
  obtain ⟨rfl, hread⟩ := of_writeTo_eq_ok hopen hbody hwrite
  have hlines := byteLines_fileText hw b
  have harity := hr'.arity_eq_of_bound hbound
  obtain ⟨p, hp, rfl, hm, hl, hnow, hquiet⟩ :=
    exists_prepare env ⟨hbound, hcreated'.proper, harity, hsizes, hconfig⟩
  rw [← hname] at hread ⊢
  refine ⟨rfl, save_eq_ok hopen hwrite, fun hroom => ?_, fun hnarrow => ?_⟩
  · obtain ⟨widened, dropped, c', hload, htuples, hdropped⟩ :=
      load_of_accommodates hw hp hl hnow harity hperm hread hlines hm hproper htested hroom
    rw [hsaved] at htuples hdropped
    refine ⟨_, c', hload, htuples, fun relation text => ?_⟩
    rw [mem_loadWarnings hquiet, hdropped, Set.exists_mem_image]
  · obtain ⟨problem, hload⟩ :=
      load_of_not_accommodates hw hp hl hnow harity hperm hread hlines hnarrow
    exact ⟨_, problem, hload⟩

/-- Tuples over domains of four and two values are loaded by a relation that lists the slots in the
other order, over three and two values, where one of them is left out; they are refused over two and
two values. -/
theorem reached_stored_pair : ∃ cat r r' narrow schema schema' c files₁,
    Reached r ∧ Reached r' ∧ Reached narrow ∧ r.stage = .opened schema c ∧
    c.tuples = {t | t ∈ [[3, 0], [1, 1]]} ∧
    writeTo (.scratch "") (r, {}) = .ok () (r, files₁) ∧
    (∃ warnings c', load cat [] files₁ (.scratch "") r' =
        .ok ⟨.ok (), warnings⟩ (r'.withContents schema' c') ∧
      [1, 1] ∈ c'.tuples ∧ [0, 3] ∉ c'.tuples ∧ .dropped "vP" "$DIR/vP.bdd" ∈ warnings) ∧
    ∃ warnings problem, load cat [] files₁ (.scratch "") narrow =
      .ok ⟨.error ⟨"vP", .format "$DIR/vP.bdd" problem⟩, warnings⟩ narrow := by
  let domain (name : String) (values : Array UInt32) : Universe :=
    .words ⟨name, fun n => s!"{n}", ⟨values, ∅⟩⟩
  let cat : Catalog :=
    ⟨#[domain "V" #[5, 6, 7, 8], domain "H" #[1, 2], domain "V" #[5, 6, 7], domain "V" #[5, 6]]⟩
  let written : Schema := ⟨"vP", ⟨["V0", "H0"], some "V0xH0", [[0, 1]]⟩, [0, 1]⟩
  let turned : Schema := ⟨"vP", ⟨["H0", "V0"], none, [[0], [1]]⟩, [1, 2]⟩
  let small : Schema := ⟨"vP", ⟨["H0", "V0"], none, [[0], [1]]⟩, [1, 3]⟩
  let config : Config := ⟨6, 3, 0.2, true, .native⟩
  have hcreated : written.signature.Created := ⟨["V0", "H0"], some "V0xH0", rfl⟩
  have hcreated' : turned.signature.Created := ⟨["H0", "V0"], none, rfl⟩
  have hr' : Reached ⟨some config, .bound turned⟩ :=
    reached_bound rfl rfl (show checkKinds "vP" cat 0 _ = _ from rfl)
  have hnarrow : Reached ⟨none, .bound small⟩ :=
    reached_bound rfl rfl (show checkKinds "vP" cat 0 _ = _ from rfl)
  obtain ⟨r, c, hr, hopen, hfresh, htuples⟩ := exists_holding cat written false rfl hcreated rfl
    rfl (by decide) [[3, 0], [1, 1]] (by decide)
  have hc := hr.contents hopen
  have haddr : c.manager.Addressable := addressable_of_sizes hc (by rw [hfresh]; decide +kernel)
  have hwidth : ∀ slot < 2, c.layout.width slot = bitsFor (written.domain cat slot).size :=
    fun slot hslot => width_eq_bitsFor hc.layout hfresh hslot
  have hroom : turned.Accommodates cat written c.layout := by
    refine List.forall_mem_cons.mpr ⟨?_, List.forall_mem_singleton.mpr ?_⟩
    · show c.layout.width 1 ≤ _
      rw [hwidth 1 (by decide)]
      decide +kernel
    · show c.layout.width 0 ≤ _
      rw [hwidth 0 (by decide)]
      decide +kernel
  have hshort : ¬ small.Accommodates cat written c.layout := fun h => by
    have hv : c.layout.width 0 ≤ 1 := h "V0" (by decide)
    rw [hwidth 0 (by decide)] at hv
    exact absurd hv (by decide +kernel)
  have hlocate : Files.locate {} ((Path.scratch "").join (diagramFile "vP")) =
      .ok ⟨.scratch, "vP.bdd"⟩ := by
    unfold Files.locate
    rw [String.contains_char_eq]
    rfl
  obtain ⟨files₁, hwrite⟩ := exists_writeTo hopen hc hlocate
  obtain ⟨_, _, hloaded, _⟩ := reached_stored hr hr' hopen rfl rfl hcreated hcreated'
    (List.Perm.swap "V0" "H0" []) haddr
    (fun _ h => Option.some.inj h ▸ Config.valid_small true)
    (show ∀ handle ∈ [1, 2], (cat.domain handle).size ≤ twoPow 63 by decide) [] hwrite
  obtain ⟨_, _, _, hrefused⟩ := reached_stored hr hnarrow hopen rfl rfl hcreated
    ⟨["H0", "V0"], none, rfl⟩ (List.Perm.swap "V0" "H0" []) haddr (fun _ h => by cases h)
    (show ∀ handle ∈ [1, 3], (cat.domain handle).size ≤ twoPow 63 by decide) [] hwrite
  have hpath : ((Path.scratch "").join (diagramFile written.name)).text = "$DIR/vP.bdd" := by
    show ((Path.scratch "").join (diagramFile "vP")).text = _
    decide +kernel
  rw [hpath] at hloaded hrefused
  obtain ⟨warnings, c', hload, htuples', hwarnings⟩ := hloaded hroom
  have hone : [1, 1] ∈ c.tuples ∧ [3, 0] ∈ c.tuples := by simp [htuples]
  have hout : ¬ turned.Inside cat [0, 3] := fun h => absurd (h 1 3 rfl) (by decide)
  refine ⟨cat, r, _, _, written, turned, c, files₁, hr, hr', hnarrow, hopen, htuples, hwrite,
    ⟨warnings, c', hload, ?_, ?_, ?_⟩, hrefused hshort⟩
  · rw [htuples']
    exact ⟨⟨[1, 1], hone.1, rfl⟩, Schema.inside_of_sizes (by decide)⟩
  · rw [htuples']
    exact fun h => hout h.2
  · exact (hwarnings _ _).mpr ⟨rfl, rfl, [3, 0], hone.2, hout⟩

end Factbase.Relation
