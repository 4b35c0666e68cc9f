import Factbase.Proofs.Diagram.Acceptance
import Factbase.Proofs.Relation.Storing

/-!
# Loading any file

A relation can be pointed at a file that no relation wrote. The file may be missing, be no text, or
say nothing of use; then the relation is told so and stays as it was. Where the file spells slots
with their variables and a graph over them, the relation has the tuples of its domains that make the
graph true.

* `FileSpells`: what a file has to say to be accepted;
* `length_missing_of_read`: what a header promises to those that subtract widths;
* `load_of_spelled`: **a file that says so is loaded**, with the tuples that it spells;
* `load_of_not_spelled`: **any other is refused**;
* `reached_loaded`: **loading withstands every file.**
-/

namespace Factbase.Relation

open Diagram Text

/-! ## 1. Files -/

/-- The file says which variables slots of given names over domains of given sizes have, and has a
graph over them. -/
structure FileSpells (names : List String) (sizes : List Nat) (fileVars : List (List Nat))
    (b : Body) (data : ByteArray) : Prop where
  /-- The header and the body, line by line. -/
  lines : ∃ rest, Header.SpelledBy names fileVars (byteLines data) rest ∧ b.StandsIn rest
  /-- Every slot has variables, no more of them than it has bits. -/
  room : List.Forall₂ (fun vars size => List.length vars ≤ bitsFor size) fileVars sizes
  /-- A variable stands for one bit of one slot. -/
  distinct : fileVars.flatten.Nodup
  graph : b.Graph
  /-- The graph tests variables of the slots only. -/
  tested : ∀ line ∈ b.lines, line.var ∈ fileVars.flatten

/-- The file of a relation in a folder spells variables of its slots and a graph over them. -/
def Schema.SpelledIn (cat : Catalog) (files : Files) (folder : Path) (schema : Schema)
    (fileVars : List (List Nat)) (b : Body) : Prop :=
  ∃ data, files.read? (folder.join (diagramFile schema.name)) = .ok data ∧
    FileSpells schema.signature.names (schema.sizes cat) fileVars b data

/-- The problem is that the file at a path cannot be read, or what is wrong with its header or its
body. -/
def RelationProblem.OfFile (path : String) : RelationProblem → Prop
  | .access found _ | .format found _ | .body found _ => found = path
  | _ => False

/-! ## 2. Headers and bodies -/

section Contents

variable {l : Layout} {fileVars : List (List Nat)}

/-- **Behind a header that is accepted nothing is cut off where widths are subtracted**: the bits
that the file lacks and those that it has are the bits of the slot. -/
theorem length_missing_of_read {names : List String} (hnodup : names.Nodup)
    (hlen : l.slots.length = names.length) {lines rest : List (Option (List Char))}
    (h : Header.read names (l.slots.map List.length) lines = .ok (fileVars, rest)) :
    ∀ p ∈ l.slots.zip fileVars, (missing p.1 p.2).length + p.2.length = p.1.length := by
  obtain ⟨_, hwidths, _⟩ := Header.of_read_eq_ok hnodup (by rw [List.length_map, hlen]) h
  exact fun p hp => length_missing_add (roomy_iff.mpr hwidths) hp

/-- A text that does not spell a graph over the variables of the slots is refused. -/
theorem ends_readContents_refused {m : Manager} (hm : m.WellFormed) (hl : l.Sound m)
    (hroom : Roomy l.slots fileVars) {lines : List (Option (List Char))}
    (hnone : ∀ b : Body, b.SpelledBy lines → b.Graph →
      ¬ ∀ line ∈ b.lines, line.var ∈ fileVars.flatten) :
    Ends (readContents l (fit l fileVars) lines) m fun result _ =>
      ∃ error, result = .error error := by
  unfold readContents
  refine (Manager.ends_readBody_value hm (fit_allocated hl fileVars) lines).bind ?_
  rintro result m₁ ⟨_, ⟨error, rfl⟩ | ⟨b, g, hspelled, hgraph, hmapped, _⟩⟩
  · exact ends_pure ⟨error, rfl⟩
  · exact absurd (fun line hline => mem_of_counterpart hroom (hmapped line hline))
      (hnone b hspelled hgraph)

end Contents

/-! ## 3. All files -/

section Files

variable {cat : Catalog} {env : Environment} {r : Relation} {p : Prepared} {files : Files}
  {folder : Path} (hp : r.prepare cat env = .ok p)

include hp

/-- A file that cannot be read leaves the relation as it is. -/
theorem load_of_access {error : AccessError}
    (hread : files.read? (folder.join (diagramFile p.schema.name)) = .error error) :
    load cat env files folder r = .ok ⟨.error ⟨p.schema.name,
      .access (folder.join (diagramFile p.schema.name)).text error⟩, p.warnings ++ []⟩ r := by
  simp only [load, hp, hread]

variable {data : ByteArray}
  (hread : files.read? (folder.join (diagramFile p.schema.name)) = .ok data)

include hread

/-- So does one whose header is no text. -/
theorem load_of_undecoded {error : AccessError}
    (hheader : Header.read p.schema.signature.names (p.layout.slots.map List.length)
      (byteLines data) = .error (.access error)) :
    load cat env files folder r = .ok ⟨.error ⟨p.schema.name,
      .access (folder.join (diagramFile p.schema.name)).text error⟩, p.warnings ++ []⟩ r := by
  simp only [load, hp, hread, hheader]

/-- So does one whose body is refused. -/
theorem load_of_body {fileVars : List (List Nat)} {lines : List (Option (List Char))}
    (hheader : Header.read p.schema.signature.names (p.layout.slots.map List.length)
      (byteLines data) = .ok (fileVars, lines)) {error : BodyError} {m : Manager}
    (hcontents : readContents p.layout (fit p.layout fileVars) lines p.manager =
      .ok (.error error) m) :
    ∃ warnings, load cat env files folder r = .ok ⟨.error ⟨p.schema.name,
      .body (folder.join (diagramFile p.schema.name)).text error⟩, warnings⟩ r := by
  simp only [load, hp, hread, hheader, hcontents]
  exact ⟨_, rfl⟩

omit hp hread in
/-- The slots of the relation have room for the variables of the file. -/
theorem room_iff (hl : p.layout.Sound p.manager) (hsizes : p.layout.sizes = p.schema.sizes cat)
    {fileVars : List (List Nat)} : Roomy p.layout.slots fileVars ↔
      List.Forall₂ (fun vars size => List.length vars ≤ bitsFor size) fileVars
        (p.schema.sizes cat) := by
  rw [roomy_iff, hl.widths, hsizes, List.forall₂_map_right_iff]

variable (hm : p.manager.WellFormed) (hl : p.layout.Sound p.manager)
  (hsizes : p.layout.sizes = p.schema.sizes cat)
  (harity : p.schema.domains.length = p.schema.signature.arity)
  (hnodup : p.schema.signature.names.Nodup)

include hm hl hsizes harity hnodup

/-- **A file that spells variables of the slots and a graph over them is loaded.** The relation has
the tuples of its domains that the file spells. -/
theorem load_of_spelled {fileVars : List (List Nat)} {b : Body}
    (h : FileSpells p.schema.signature.names (p.schema.sizes cat) fileVars b data) :
    ∃ warnings c, load cat env files folder r =
        .ok ⟨.ok (), warnings⟩ (r.withContents p.schema c) ∧
      c.tuples = {t ∈ spelled fileVars b.value | p.schema.Inside cat t} := by
  obtain ⟨lines, hheader, hbody⟩ := h.lines
  have hroom : Roomy p.layout.slots fileVars := (room_iff hl hsizes).mpr h.room
  have hread' := hheader.read_eq hnodup
    (by rw [List.length_map, length_slots_eq hl hsizes harity]) (roomy_iff.mp hroom) h.distinct
  obtain ⟨result, m, run, n, root, dropped, rfl, _, hval, _⟩ := ends_readContents_spelled hroom
    h.distinct hm hl (Body.spelledBy_iff.mpr hbody) h.graph h.tested
  refine ⟨_, _, load_of_contents hp hread hread' run, ?_⟩
  simp only [← inside_iff hsizes]
  exact (hl.next n).spelled_eq (fun t ht => fits_of_spelled hroom ht.1) hval

omit hread in
/-- **Any other file is refused**, and the relation is as it was. -/
theorem load_of_not_spelled
    (hnone : ∀ fileVars b, ¬ p.schema.SpelledIn cat files folder fileVars b) :
    ∃ warnings problem, load cat env files folder r = .ok ⟨.error ⟨p.schema.name, problem⟩,
      warnings⟩ r ∧ problem.OfFile (folder.join (diagramFile p.schema.name)).text := by
  cases hread : files.read? (folder.join (diagramFile p.schema.name)) with
  | error error => exact ⟨_, .access _ error, load_of_access hp hread, rfl⟩
  | ok data =>
      cases hheader : Header.read p.schema.signature.names (p.layout.slots.map List.length)
          (byteLines data) with
      | error error =>
          cases error with
          | access error => exact ⟨_, .access _ error, load_of_undecoded hp hread hheader, rfl⟩
          | format problem => exact ⟨_, .format _ problem, load_of_header hp hread hheader, rfl⟩
      | ok found =>
          obtain ⟨fileVars, lines⟩ := found
          obtain ⟨hspelled, hwidths, hdistinct⟩ := Header.of_read_eq_ok hnodup
            (by rw [List.length_map, length_slots_eq hl hsizes harity]) hheader
          have hroom : Roomy p.layout.slots fileVars := roomy_iff.mpr hwidths
          have hrefused : ∀ b : Body, b.SpelledBy lines → b.Graph →
              ¬ ∀ line ∈ b.lines, line.var ∈ fileVars.flatten :=
            fun b hb hgraph hvars => hnone fileVars b ⟨data, hread,
              ⟨lines, hspelled, Body.spelledBy_iff.mp hb⟩, (room_iff hl hsizes).mp hroom,
              hdistinct, hgraph, hvars⟩
          obtain ⟨result, m, run, error, rfl⟩ :=
            ends_readContents_refused hm hl hroom hrefused
          obtain ⟨warnings, hload⟩ := load_of_body hp hread hheader run
          exact ⟨warnings, .body _ error, hload, rfl⟩

end Files

/-! ## 4. Main result -/

/-- **Loading withstands every file.** A described relation that is reached and whose configuration
is that of a manager, pointed at any folder with any files, comes to an answer. Where its file
spells variables for its slots and a graph over them, the relation is open with the tuples that the
graph is true on and whose every index is below the present size of its domain. Where there is no
file, or it spells nothing of the kind, the relation is told what is wrong, and is as it was. -/
theorem reached_loaded {r : Relation} (hr : Reached r) {schema : Schema}
    (hbound : r.stage = .bound schema) (hcreated : schema.signature.Created)
    (hconfig : ∀ config, r.config = some config → config.Valid) {cat : Catalog}
    (hsizes : ∀ handle ∈ schema.domains, (cat.domain handle).size ≤ twoPow 63)
    (env : Environment) (files : Files) (folder : Path) :
    ∃ answer warnings r', load cat env files folder r = .ok ⟨answer, warnings⟩ r' ∧
      (((∀ fileVars b, ¬ schema.SpelledIn cat files folder fileVars b) ∧
          ∃ problem : RelationProblem, answer = .error ⟨schema.name, problem⟩ ∧
            problem.OfFile (folder.join (diagramFile schema.name)).text ∧ r' = r) ∨
        ((∃ fileVars b, schema.SpelledIn cat files folder fileVars b) ∧ answer = .ok () ∧
          ∃ c, r' = r.withContents schema c ∧
            ∀ fileVars b, schema.SpelledIn cat files folder fileVars b →
              c.tuples = {t ∈ spelled fileVars b.value | schema.Inside cat t})) := by
  have harity := hr.arity_eq_of_bound hbound
  have hnodup := hcreated.proper.nodup
  obtain ⟨p, hp, rfl, hm, hl, hnow, _⟩ :=
    exists_prepare env ⟨hbound, hcreated.proper, harity, hsizes, hconfig⟩
  by_cases hspelled : ∃ fileVars b, p.schema.SpelledIn cat files folder fileVars b
  · obtain ⟨_, _, data, hread, h⟩ := hspelled
    obtain ⟨warnings, c, hload, _⟩ := load_of_spelled hp hread hm hl hnow harity hnodup h
    refine ⟨_, warnings, _, hload, .inr ⟨⟨_, _, data, hread, h⟩, rfl, c, rfl, ?_⟩⟩
    -- whatever else the file can be read as, it is loaded the same way
    rintro fileVars b ⟨data, hread, h⟩
    obtain ⟨_, c', hload', htuples⟩ := load_of_spelled hp hread hm hl hnow harity hnodup h
    obtain ⟨_, hsame⟩ := EStateM.Result.ok.inj (hload.symm.trans hload')
    obtain ⟨_, rfl⟩ := Stage.opened.inj (congrArg Relation.stage hsame)
    exact htuples
  · have hnone : ∀ fileVars b, ¬ p.schema.SpelledIn cat files folder fileVars b :=
      fun fileVars b h => hspelled ⟨fileVars, b, h⟩
    obtain ⟨warnings, problem, hload, hfile⟩ :=
      load_of_not_spelled hp hm hl hnow harity hnodup hnone
    exact ⟨_, warnings, r, hload, .inl ⟨hnone, problem, rfl, hfile, rfl⟩⟩

/-- A file whose graph tests its two variables in the wrong order, and one of them twice. -/
def untidyText : String := "# V0:2\n# 7 9\n3 9\n2 9 -1 1\n3 7 2 -2\n4 9 3 -3\n4\n"

/-- Its graph, which is true where the first variable is. -/
def untidyBody : Body := ⟨9, [⟨2, 9, -1, 1⟩, ⟨3, 7, 2, -2⟩, ⟨4, 9, 3, -3⟩], 4⟩

theorem untidyBody_value (σ : Assignment) : untidyBody.value σ = σ 7 := by
  show Body.walk σ [⟨4, 9, 3, -3⟩, ⟨3, 7, 2, -2⟩, ⟨2, 9, -1, 1⟩] 4 = σ 7
  cases h7 : σ 7 <;> cases h9 : σ 9 <;> simp [Body.walk, h7, h9]

theorem untidyBody_graph : untidyBody.Graph := by
  refine ⟨⟨?_, ?_, ?_, trivial⟩, .inr ⟨⟨4, 9, 3, -3⟩, by decide, rfl⟩⟩
  · exact ⟨by decide, by decide, by decide, .inl rfl, .inl rfl⟩
  · exact ⟨by decide, by decide, by decide, .inr ⟨_, List.mem_cons_self, rfl⟩,
      .inr ⟨_, List.mem_cons_self, rfl⟩⟩
  · exact ⟨by decide, by decide, by decide, .inr ⟨⟨3, 7, 2, -2⟩, by decide, rfl⟩,
      .inr ⟨⟨3, 7, 2, -2⟩, by decide, rfl⟩⟩

/-- The file spells the graph for a slot over three values. -/
theorem untidyText_spells : FileSpells ["V0"] [3] [[7, 9]] untidyBody untidyText.toUTF8 := by
  have hlines : byteLines untidyText.toUTF8 = ["# V0:2", "# 7 9", "3 9", "2 9 -1 1", "3 7 2 -2",
    "4 9 3 -3", "4"].map (some ·.toList) := by decide +kernel
  have hbits : Numeral .word64 ['2'] (2 : Nat) := (readNat_eq_ok_iff rfl).mp (by decide)
  have hfirst : Numeral .word32 ['7'] (7 : Nat) := (readNat_eq_ok_iff rfl).mp (by decide)
  have hsecond : Numeral .word32 ['9'] (9 : Nat) := (readNat_eq_ok_iff rfl).mp (by decide)
  refine ⟨⟨["3 9", "2 9 -1 1", "3 7 2 -2", "4 9 3 -3", "4"].map (some ·.toList), ?_,
    Body.spelledBy_iff.mp ?_⟩, .cons (by decide) .nil, by decide, untidyBody_graph, by decide⟩
  · exact ⟨"# V0:2".toList, ["V0:2".toList], [0], ["# 7 9".toList], hlines, .refl _,
      ⟨" V0:2".toList, rfl, by decide⟩, .cons ⟨"V0", ['2'], rfl, by decide, rfl, hbits⟩ .nil,
      .cons ⟨[['7'], ['9']], ⟨" 7 9".toList, rfl, by decide⟩,
        .cons hfirst (.cons hsecond .nil)⟩ .nil⟩
  · refine ⟨"3 9".toList, ["2 9 -1 1".toList, "3 7 2 -2".toList, "4 9 3 -3".toList], "4".toList,
      [], by decide, ⟨['3'], ['9'], by decide, by decide, by decide⟩, ?_, by decide⟩
    exact .cons ⟨['2'], ['9'], ['-', '1'], ['1'], by decide⟩
      (.cons ⟨['3'], ['7'], ['2'], ['-', '2'], by decide⟩
        (.cons ⟨['4'], ['9'], ['3'], ['-', '3'], by decide⟩ .nil))

/-- Of the numbers two and three, which the graph is true on, a relation over three values has the
first one. Where there is no file it is told so. -/
theorem reached_loaded_single : ∃ (cat : Catalog) (r : Relation) (schema : Schema) (files : Files),
    Reached r ∧ r.stage = .bound schema ∧
    files.entries[(⟨.scratch, "vP.bdd"⟩ : Address)]? = some untidyText.toUTF8 ∧
    (∃ warnings c, load cat [] files (.scratch "") r =
      .ok ⟨.ok (), warnings⟩ (r.withContents schema c) ∧ c.tuples = {[2]}) ∧
    ∃ warnings problem, load cat [] {} (.scratch "") r = .ok ⟨.error ⟨"vP", problem⟩, warnings⟩ r ∧
      problem.OfFile ((Path.scratch "").join (diagramFile "vP")).text := by
  let cat : Catalog := ⟨#[.words ⟨"V", fun n => s!"{n}", ⟨#[5, 6, 7], ∅⟩⟩]⟩
  let schema : Schema := ⟨"vP", ⟨["V0"], none, [[0]]⟩, [0]⟩
  let files : Files := ⟨Std.HashMap.insert {} (⟨.scratch, "vP.bdd"⟩ : Address) untidyText.toUTF8⟩
  have hr : Reached ⟨none, .bound schema⟩ :=
    reached_bound rfl rfl (show checkKinds "vP" cat 0 _ = _ from rfl)
  have hcreated : schema.signature.Created := ⟨["V0"], none, rfl⟩
  have hsizes : ∀ handle ∈ schema.domains, (cat.domain handle).size ≤ twoPow 63 :=
    List.forall_mem_singleton.mpr (by decide +kernel)
  have hlocate (files : Files) : files.locate ((Path.scratch "").join (diagramFile "vP")) =
      .ok ⟨.scratch, "vP.bdd"⟩ := by
    rw [Files.locate, String.contains_char_eq]
    rfl
  have hspelled : schema.SpelledIn cat files (.scratch "") [[7, 9]] untidyBody := by
    refine ⟨untidyText.toUTF8, bind_eq_ok (hlocate files) ?_, untidyText_spells⟩
    rw [Std.HashMap.getElem?_insert_self]
    rfl
  have hnothing : ∀ fileVars b, ¬ schema.SpelledIn cat {} (.scratch "") fileVars b := by
    rintro fileVars b ⟨data, hread, _⟩
    obtain ⟨address, hfound, hread⟩ := ok_of_bind hread
    obtain rfl := Except.ok.inj (hfound.symm.trans (hlocate {}))
    have hmissing : ({} : Files).entries[(⟨.scratch, "vP.bdd"⟩ : Address)]? = none :=
      Std.HashMap.getElem?_ofList_of_contains_eq_false (by decide)
    rw [hmissing] at hread
    cases hread
  have hload (files : Files) := reached_loaded hr rfl hcreated (fun _ h => by cases h) hsizes []
    files (.scratch "")
  refine ⟨cat, _, schema, files, hr, rfl, Std.HashMap.getElem?_insert_self, ?_, ?_⟩
  · obtain ⟨answer, warnings, r', hload, ⟨hnone, _⟩ | ⟨_, rfl, c, rfl, htuples⟩⟩ := hload files
    · exact absurd hspelled (hnone _ _)
    · refine ⟨warnings, c, hload, (htuples _ _ hspelled).trans (Set.ext fun t => ⟨?_, ?_⟩)⟩
      · rintro ⟨⟨σ, rfl, htrue⟩, hinside⟩
        rw [untidyBody_value] at htrue
        have hlt : number σ [7, 9] < 3 := hinside 0 _ rfl
        have hnumber : number σ [7, 9] = 2 + (σ 9).toNat := by simp [number, htrue]
        have hzero : (σ 9).toNat = 0 := by omega
        rw [hzero] at hnumber
        exact congrArg (fun n => [n]) hnumber
      · rintro rfl
        exact ⟨⟨fun v => v = 7, rfl, untidyBody_value _⟩,
          forall_getElem?_singleton (by decide : 2 < 3)⟩
  · obtain ⟨answer, warnings, r', hload, ⟨_, problem, rfl, hfile, rfl⟩ | ⟨⟨_, _, h⟩, _⟩⟩ := hload {}
    · exact ⟨warnings, problem, hload, hfile⟩
    · exact absurd h (hnothing _ _)

end Factbase.Relation
