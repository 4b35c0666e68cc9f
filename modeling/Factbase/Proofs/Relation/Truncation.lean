import Factbase.Proofs.Relation.Loading

/-!
# Files that are cut off

A file says how many decisions its body has, so that a reader misses whatever is cut off before the
last line. That line is the root. A root that has lost digits is still the root of some graph, and
nothing tells the reader that digits are missing.

* `Body.rooted`: the same decisions under another root;
* `exists_lines_of_cut`: the lines that are left of a file;
* `SpelledBy.complete`: **the first line of a body tells whether lines are missing**;
* `complete_of_spelled`: **a file that is accepted has all lines of the one that was written**;
* `load_of_cut`: what loading a file comes to that is cut off;
* `reached_cut`: **only a root that has lost digits is mistaken for another one**;
* `exists_mistaken`: **and every such root is.**
-/

/-! ## 1. Bodies -/

namespace Factbase.Diagram.Body

open Text

/-- The same decisions under another root. -/
def rooted (b : Body) (root : Int) : Body := { b with root := root }

/-- What is left of the root's number, which is the number itself or has lost digits. -/
structure LeftOf (b : Body) (root : Int) : Prop where
  text : (toString root).toList <+: (toString b.root).toList
  size : root = b.root ∨ 0 < root.natAbs ∧ 10 * root.natAbs ≤ b.root.natAbs

/-- A number is what is left of the root, unless only its sign is. -/
theorem exists_leftOf {b : Body} {part : List Char} (h : part <+: (toString b.root).toList)
    (hne : part ≠ []) : part = ['-'] ∨ ∃ root, part = (toString root).toList ∧ b.LeftOf root := by
  refine (exists_of_prefix_toString h hne).imp id ?_
  rintro ⟨root, rfl, hsize⟩
  exact ⟨root, rfl, h, hsize⟩

/-- The fields of the first line. -/
def counts (b : Body) : List (List Char) :=
  [(toString b.lines.length).toList, (toString b.numVars).toList]

/-- The fields of all lines but the last one. -/
def rootless (b : Body) : List (List (List Char)) := b.counts :: b.lines.map BodyLine.fields

theorem fields_eq (b : Body) : b.fields = b.rootless ++ [[(toString b.root).toList]] := rfl

theorem Proper.rooted {b : Body} (h : b.Proper) {root : Int} (hleft : b.LeftOf root) :
    (b.rooted root).Proper where
  lines := h.lines
  root := by
    rcases hleft.size with rfl | ⟨hpos, hle⟩
    · exact h.root
    · have hlt := h.root.2
      exact ⟨Int.natAbs_pos.mp hpos, by show root.natAbs < b.lines.length + 2; omega⟩
  numVars := h.numVars
  vars := h.vars
  count := h.count

section Spelled

variable {b' : Body}

theorem SpelledBy.two_le_length {lines : List (Option (List Char))} (h : b'.SpelledBy lines) :
    2 ≤ lines.length := by
  obtain ⟨header, decisions, root, behind, hspelt, _⟩ := h
  refine Nat.le_trans ?_ (List.length_filter_le (fun line => !isBlankLine line) lines)
  rw [hspelt, List.length_cons, List.length_append, List.length_cons]
  omega

/-- **The first line tells whether lines are missing.** A text that starts like that of a body, has
no more lines and is accepted has as many of them, with a number in the last one. -/
theorem SpelledBy.complete {b : Body} (hb : b.Proper) {lines : List (List Char)}
    (h : b'.SpelledBy ((spaced b.counts :: lines).map some))
    (hlen : lines.length ≤ b.lines.length + 1) :
    ∃ texts root, lines = texts ++ [root] ∧ texts.length = b.lines.length ∧
      readInt .signed32 (trim root) = .ok b'.root := by
  obtain ⟨header, decisions, root, behind, hspelt, ⟨nodes, vars, hwords, hnodes, _⟩, hdecisions,
    hroot⟩ := h
  have hcounts : ∀ cs ∈ b.counts, Word cs := b.word_fields _ List.mem_cons_self
  have hsolid : isBlankLine (some (spaced b.counts)) = false :=
    isBlankLine_spaced (List.cons_ne_nil _ _) hcounts
  rw [List.map_cons, List.filter_cons_of_pos (by rw [hsolid]; rfl)] at hspelt
  obtain ⟨hheader, hspelt⟩ := List.cons.inj hspelt
  rw [← Option.some.inj hheader, words_spaced hcounts] at hwords
  obtain ⟨rfl, _⟩ := List.cons.inj hwords
  -- the counts are those of the body, so there is a decision for every line but the last
  have hmost : b.lines.length ≤ NumeralRange.word64.most :=
    Nat.le_trans (Nat.le_trans (Nat.le_add_right _ 2) hb.count) (by decide)
  have hcount : b.lines.length = b'.lines.length :=
    Except.ok.inj ((readNat_repr hmost).symm.trans hnodes)
  have hfilter := List.filter_sublist (p := fun line => !isBlankLine line) (l := lines.map some)
  have hle := hfilter.length_le
  have hsame := hdecisions.length_eq
  rw [hspelt, List.length_append, List.length_cons, List.length_map, List.length_map] at hle
  have hall := hfilter.eq_of_length (by
    rw [hspelt, List.length_append, List.length_cons, List.length_map, List.length_map]
    omega)
  obtain rfl : behind = [] := List.eq_nil_of_length_eq_zero (by omega)
  refine ⟨decisions, root, ?_, by omega, hroot⟩
  rw [hall, ← List.map_singleton, ← List.map_append] at hspelt
  exact List.map_injective_iff.mpr (Option.some_injective _) hspelt

end Spelled

end Factbase.Diagram.Body

namespace Factbase.Relation

open Diagram Text

/-! ## 2. What is left -/

section Cut

variable {schema : Schema} {c : Contents} {b : Body}
  (hw : Header.Written schema.signature.names c.layout.slots)

/-- The text of a file is what stands before its last line, and the root. -/
theorem unlines_fileFields (layout : Layout) :
    unlines '\n' ((fileFields schema layout b).map spaced) =
      unlines '\n' ((Header.fields schema.signature.names layout.slots ++ b.rootless).map spaced) ++
        ((toString b.root).toList ++ ['\n']) := by
  rw [fileFields, b.fields_eq, ← List.append_assoc, List.map_append, unlines, unlines,
    List.flatMap_append, List.map_singleton, List.flatMap_singleton, spaced,
    List.intercalate_singleton]

include hw

/-- The bytes of a file. -/
theorem toList_fileText :
    (String.ofList (unlines '\n' ((fileFields schema c.layout b).map spaced))).toUTF8.toList =
      (unlines '\n' ((fileFields schema c.layout b).map spaced)).map byteOf := by
  rw [toUTF8_ascii (ascii_unlines (ascii_fileFields hw b)), toList_byteArray,
    List.data_toByteArray]

variable {data : ByteArray}
  (hcut : data.toList <+:
    (String.ofList (unlines '\n' ((fileFields schema c.layout b).map spaced))).toUTF8.toList)
  (hstrict : data.toList ≠
    (String.ofList (unlines '\n' ((fileFields schema c.layout b).map spaced))).toUTF8.toList)

/-- Lines of a file and the start of the next one, as a file. -/
theorem byteLines_cut {done todo : List (List (List Char))} {fields : List (List Char)}
    (hfile : fileFields schema c.layout b = done ++ fields :: todo) {part : List Char}
    (hpart : part <+: spaced fields)
    (hdata : data.toList = (unlines '\n' (done.map spaced) ++ part).map byteOf) :
    byteLines data = (done.map spaced ++ openLine part).map some := by
  have hascii := ascii_fileFields hw b
  have hunbroken := unbroken_fileFields hw b
  rw [hfile, List.map_append, List.map_cons, List.forall_mem_append, List.forall_mem_cons]
    at hascii hunbroken
  obtain ⟨hnewline, hcr⟩ := hunbroken.2.1
  exact byteLines_of_bytes hascii.1 hunbroken.1 (fun c hc => hascii.2.1 c (hpart.subset hc))
    ⟨fun h => hnewline (hpart.subset h), fun h => hcr (hpart.subset h)⟩ hdata

include hcut hstrict

/-- **The lines that are left of a file** are some of its lines and the start of the next one. -/
theorem exists_lines_of_cut : ∃ done fields todo part,
    fileFields schema c.layout b = done ++ fields :: todo ∧ part <+: spaced fields ∧
      byteLines data = (done.map spaced ++ openLine part).map some := by
  rw [toList_fileText hw] at hcut hstrict
  obtain ⟨cs, hprefix, hcs⟩ := List.prefix_map_iff.mp hcut
  have hne : cs ≠ unlines '\n' ((fileFields schema c.layout b).map spaced) := fun hsame =>
    hstrict (by rw [hcs, hsame])
  obtain ⟨lines, line, rest, part, hlines, rfl, hpart⟩ := exists_of_prefix_unlines hprefix hne
  obtain ⟨done, more, hfile, rfl, hmore⟩ := List.map_eq_append_iff.mp hlines
  obtain ⟨fields, todo, rfl, rfl, rfl⟩ := List.map_eq_cons_iff.mp hmore
  exact ⟨done, fields, todo, part, hfile, hpart, byteLines_cut hw hfile hpart hcs⟩

end Cut

/-! ## 3. What is accepted -/

section Accepted

variable {schema : Schema} {c : Contents} {b : Body}
  (hw : Header.Written schema.signature.names c.layout.slots) (hb : b.Proper)
  {done todo : List (List (List Char))} {fields : List (List Char)} {part : List Char}
  (hfile : fileFields schema c.layout b = done ++ fields :: todo) {data : ByteArray}
  (hlines : byteLines data = (done.map spaced ++ openLine part).map some)
  {names : List String} (hlen : names.length = schema.signature.names.length) {sizes : List Nat}
  {fileVars : List (List Nat)} {b' : Body}

include hw hb hfile hlines hlen

/-- **A file that is accepted has all lines of the one that was written**, and a number in the last
one. -/
theorem complete_of_spelled (hspells : FileSpells names sizes fileVars b' data) :
    todo = [] ∧ part ≠ [] ∧ ∃ root, readInt .signed32 (trim part) = .ok root := by
  obtain ⟨rest, ⟨first, _, order, blocks, hheader, hperm, _, _, hblocks⟩, hbody⟩ := hspells.lines
  have hblocksLen : blocks.length = schema.signature.names.length := by
    rw [hblocks.length_eq, hperm.length_eq, List.length_range, hlen]
  have hheaderLen : (Header.fields schema.signature.names c.layout.slots).length =
      schema.signature.names.length + 1 := by
    rw [Header.fields, List.length_cons, List.length_map, hw.length]
  have hpartLen := length_openLine_le part
  rw [← Body.spelledBy_iff] at hbody
  have htwo := hbody.two_le_length
  have hcount := congrArg List.length (hlines.symm.trans hheader)
  simp only [List.length_map, List.length_append, List.length_cons] at hcount
  -- the header is there, and so is the first line of the body
  rw [fileFields, b.fields_eq, Body.rootless, List.cons_append, List.append_cons] at hfile
  obtain ⟨more, rfl⟩ : _ <+: done := List.prefix_of_prefix_length_le
    (List.prefix_append (Header.fields schema.signature.names c.layout.slots ++ [b.counts]) _)
    (hfile ▸ List.prefix_append done _) (by rw [List.length_append, List.length_singleton]; omega)
  rw [List.append_assoc _ more, List.append_cancel_left_eq] at hfile
  have htotal := congrArg List.length hfile
  simp only [List.length_map, List.length_append, List.length_cons, List.length_nil] at htotal
  have hrest : rest = (spaced b.counts :: (more.map spaced ++ openLine part)).map some := by
    have hboth : ((Header.fields schema.signature.names c.layout.slots).map spaced).map some ++
        (spaced b.counts :: (more.map spaced ++ openLine part)).map some =
          (some first :: blocks.map some) ++ rest := by
      rw [List.cons_append, ← hheader, hlines]
      simp only [List.map_append, List.map_cons, List.append_assoc, List.cons_append,
        List.nil_append]
    refine (List.append_inj_right hboth ?_).symm
    rw [List.length_map, List.length_map, List.length_cons, List.length_map]
    omega
  rw [hrest] at hbody
  obtain ⟨texts, root, hsplit, htexts, hroot⟩ := hbody.complete hb (by
    rw [List.length_append, List.length_map]
    omega)
  have hcounted := congrArg List.length hsplit
  rw [List.length_append, List.length_append, List.length_map, List.length_singleton] at hcounted
  -- every line but the last one is there as a whole
  have hne : part ≠ [] := fun hnil => by
    rw [hnil, openLine, List.length_nil] at hcounted
    omega
  rw [openLine_of_ne_nil hne] at hsplit hcounted
  obtain ⟨_, hlast⟩ := List.append_inj' hsplit rfl
  rw [List.length_singleton] at hcounted
  refine ⟨List.eq_nil_of_length_eq_zero (by omega), hne, b'.root, ?_⟩
  rw [(List.cons.inj hlast).1]
  exact hroot

end Accepted

/-! ## 4. Cut files -/

/-- A file without its last line end, under another root. -/
theorem lines_rooted (names : List String) (slots : List (List Nat)) (b : Body) (root : Int) :
    (((Header.fields names slots ++ b.rootless).map spaced ++
        openLine (toString root).toList).map some) =
      ((Header.fields names slots).map spaced).map some ++
        (splitLines (b.rooted root).render.toList).map some := by
  rw [(b.rooted root).splitLines_render, (b.rooted root).fields_eq,
    openLine_of_ne_nil (word_toString root).nonempty]
  simp only [List.map_append, List.append_assoc, List.map_cons, List.map_nil, spaced,
    List.intercalate_singleton]
  rfl

section Load

variable {cat : Catalog} {env : Environment} {schema : Schema} {c : Contents}
  (hw : Header.Written schema.signature.names c.layout.slots) {r : Relation} {p : Prepared}
  (hp : r.prepare cat env = .ok p) (hm : p.manager.WellFormed) (hl : p.layout.Sound p.manager)
  (hsizes : p.layout.sizes = p.schema.sizes cat)
  (harity : p.schema.domains.length = p.schema.signature.arity)
  (hperm : p.schema.signature.names.Perm schema.signature.names) {b : Body} (hb : b.Proper)
  (htested : ∀ line ∈ b.lines, line.var ∈ c.layout.slots.flatten) {files : Files} {folder : Path}
  {data : ByteArray}
  (hread : files.read? (folder.join (diagramFile p.schema.name)) = .ok data)

include hw hp hm hl hsizes harity hperm hb htested hread

/-- **What loading a file comes to that is cut off.** It is refused, or it has lost at most the last
line end and some of the root's digits. -/
theorem load_of_cut
    (hcut : data.toList <+:
      (String.ofList (unlines '\n' ((fileFields schema c.layout b).map spaced))).toUTF8.toList)
    (hstrict : data.toList ≠
      (String.ofList (unlines '\n' ((fileFields schema c.layout b).map spaced))).toUTF8.toList) :
    ∃ answer warnings r', load cat env files folder r = .ok ⟨answer, warnings⟩ r' ∧
      ((∃ problem : RelationProblem, answer = .error ⟨p.schema.name, problem⟩ ∧ r' = r) ∨
        (answer = .ok () ∧ ∃ root c', b.LeftOf root ∧ r' = r.withContents p.schema c' ∧
          c'.tuples = {t ∈ spelled (Signature.rearranged schema.signature.names
            p.schema.signature.names c.layout.slots) (b.rooted root).value |
              p.schema.Inside cat t})) := by
  have hnodup : p.schema.signature.names.Nodup := hperm.nodup_iff.mpr hw.nodup
  by_cases hspelled : ∃ fileVars b', p.schema.SpelledIn cat files folder fileVars b'
  swap
  · obtain ⟨warnings, problem, hload, _⟩ := load_of_not_spelled hp hm hl hsizes harity hnodup
      fun fileVars b' h => hspelled ⟨fileVars, b', h⟩
    exact ⟨_, warnings, r, hload, .inl ⟨problem, rfl, rfl⟩⟩
  obtain ⟨fileVars, b', data', hread', hspells⟩ := hspelled
  obtain rfl := Except.ok.inj (hread.symm.trans hread')
  obtain ⟨done, fields, todo, part, hfile, hpart, hlines⟩ := exists_lines_of_cut hw hcut hstrict
  obtain ⟨rfl, hne, root', hroot⟩ := complete_of_spelled hw hb hfile hlines hperm.length_eq hspells
  rw [fileFields, b.fields_eq, ← List.append_assoc] at hfile
  obtain ⟨rfl, hlast⟩ := List.append_inj' hfile rfl
  rw [← (List.cons.inj hlast).1, spaced_singleton] at hpart
  rcases Body.exists_leftOf hpart hne with rfl | ⟨root, rfl, hleft⟩
  · cases hroot
  rw [lines_rooted] at hlines
  by_cases hroom : p.schema.Accommodates cat schema c.layout
  · obtain ⟨_, _, c', hload, htuples, _⟩ := load_of_accommodates hw hp hl hsizes harity hperm hread
      hlines hm (hb.rooted hleft) htested hroom
    exact ⟨_, _, _, hload, .inr ⟨rfl, root, c', hleft, rfl, htuples⟩⟩
  · obtain ⟨problem, hload⟩ :=
      load_of_not_accommodates hw hp hl hsizes harity hperm hread hlines hroom
    exact ⟨_, _, r, hload, .inl ⟨_, rfl, rfl⟩⟩

end Load

/-! ## 5. Main results -/

section Reached

variable {r r' : Relation} (hr : Reached r) (hr' : Reached r') {schema schema' : Schema}
  {c : Contents} (hopen : r.stage = .opened schema c) (hbound : r'.stage = .bound schema')
  (hname : schema'.name = schema.name) (hcreated : schema.signature.Created)
  (hcreated' : schema'.signature.Created)
  (hperm : schema'.signature.names.Perm schema.signature.names) (haddr : c.manager.Addressable)
  (hconfig : ∀ config, r'.config = some config → config.Valid) {cat : Catalog}
  (hsizes : ∀ handle ∈ schema'.domains, (cat.domain handle).size ≤ twoPow 63)
  (env : Environment) {folder : Path} {files files₁ : Files} {r₁ : Relation}
  (hwrite : writeTo folder (r, files) = .ok () (r₁, files₁)) {whole : ByteArray}
  (hwhole : files₁.read? (folder.join (diagramFile schema.name)) = .ok whole)

include hr hr' hopen hbound hname hcreated hcreated' hperm haddr hconfig hsizes hwrite hwhole

/-- **Only a root that has lost digits is mistaken for another one.** Where the file of a relation
is cut off anywhere, a described relation of the same name and slots that is pointed at it is told
what is wrong and is as it was, or has the tuples of its domains that were saved, or has those of
another root, whose number is what is left of one of two digits or more. -/
theorem reached_cut {cut : ByteArray} (hcut : cut.toList <+: whole.toList) (hstrict : cut ≠ whole)
    {files₂ : Files} (hread : files₂.read? (folder.join (diagramFile schema.name)) = .ok cut) :
    let arrange := Signature.rearranged (α := Nat) schema.signature.names schema'.signature.names
    let slots := Signature.rearranged schema.signature.names schema'.signature.names c.layout.slots
    ∃ b, c.manager.body c.root = .ok b ∧ ∃ answer warnings r'',
      load cat env files₂ folder r' = .ok ⟨answer, warnings⟩ r'' ∧
      ((∃ problem : RelationProblem, answer = .error ⟨schema.name, problem⟩ ∧ r'' = r') ∨
        (answer = .ok () ∧ ∃ c', r'' = r'.withContents schema' c' ∧
          (c'.tuples = {t ∈ arrange '' c.tuples | schema'.Inside cat t} ∨
            ∃ root, b.LeftOf root ∧ 10 ≤ b.root.natAbs ∧
              c'.tuples = {t ∈ spelled slots (b.rooted root).value | schema'.Inside cat t}))) := by
  intro arrange slots
  have hc := hr.contents hopen
  have hw := hc.written (hr.arity_eq_of_opened hopen) hcreated.proper haddr
  obtain ⟨b, hbody, hproper, htested, hsaved⟩ :=
    exists_saved hc schema.signature.names schema'.signature.names haddr
  obtain ⟨_, hfile⟩ := of_writeTo_eq_ok hopen hbody hwrite
  obtain rfl := Except.ok.inj (hwhole.symm.trans hfile)
  obtain ⟨p, hp, rfl, hm, hl, hnow, _⟩ := exists_prepare env
    ⟨hbound, hcreated'.proper, hr'.arity_eq_of_bound hbound, hsizes, hconfig⟩
  rw [← hname] at hread ⊢
  obtain ⟨answer, warnings, r'', hload, hcases⟩ := load_of_cut hw hp hm hl hnow
    (hr'.arity_eq_of_bound hbound) hperm hproper htested hread hcut
    (hstrict ∘ toList_byteArray_inj)
  refine ⟨b, hbody, answer, warnings, r'', hload, hcases.imp id ?_⟩
  rintro ⟨rfl, root, c', hleft, hr'', htuples⟩
  refine ⟨rfl, c', hr'', ?_⟩
  rcases hleft.size with rfl | ⟨hpos, hle⟩
  · exact .inl (htuples.trans (by rw [← hsaved]; rfl))
  · exact .inr ⟨root, hleft, by omega, htuples⟩

/-- **And every such root is.** Where the slots are wide enough, the file without the last digits of
its root is loaded, with the tuples of the root that is left. -/
theorem exists_mistaken {b : Body} (hbody : c.manager.body c.root = .ok b) {root : Int}
    (hleft : b.LeftOf root) (hroom : schema'.Accommodates cat schema c.layout) :
    ∃ cut : ByteArray, cut.toList <+: whole.toList ∧ cut ≠ whole ∧ ∀ files₂ : Files,
      files₂.read? (folder.join (diagramFile schema.name)) = .ok cut → ∃ warnings c',
        load cat env files₂ folder r' = .ok ⟨.ok (), warnings⟩ (r'.withContents schema' c') ∧
        c'.tuples = {t ∈ spelled (Signature.rearranged schema.signature.names
          schema'.signature.names c.layout.slots) (b.rooted root).value |
            schema'.Inside cat t} := by
  have hc := hr.contents hopen
  have hw := hc.written (hr.arity_eq_of_opened hopen) hcreated.proper haddr
  obtain ⟨b', hbody', hproper, htested, _⟩ :=
    exists_saved hc schema.signature.names schema'.signature.names haddr
  obtain rfl := Except.ok.inj (hbody.symm.trans hbody')
  obtain ⟨_, hfile⟩ := of_writeTo_eq_ok hopen hbody hwrite
  obtain rfl := Except.ok.inj (hwhole.symm.trans hfile)
  obtain ⟨p, hp, rfl, hm, hl, hnow, _⟩ := exists_prepare env
    ⟨hbound, hcreated'.proper, hr'.arity_eq_of_bound hbound, hsizes, hconfig⟩
  -- the file up to the last digit that is left
  let front := unlines '\n' ((Header.fields schema.signature.names c.layout.slots ++
    b.rootless).map spaced)
  obtain ⟨lost, hlost⟩ := hleft.text
  have hcut : ((front ++ (toString root).toList).map byteOf).toByteArray.toList =
      (front ++ (toString root).toList).map byteOf := by
    rw [toList_byteArray, List.data_toByteArray]
  have htext : (String.ofList (unlines '\n' ((fileFields schema c.layout b).map
      spaced))).toUTF8.toList =
        (front ++ (toString root).toList).map byteOf ++ (lost ++ ['\n']).map byteOf := by
    rw [toList_fileText hw, unlines_fileFields, ← hlost, ← List.map_append]
    simp only [front, List.append_assoc]
  refine ⟨((front ++ (toString root).toList).map byteOf).toByteArray, ?_, fun hsame => ?_,
    fun files₂ hread => ?_⟩
  · rw [hcut, htext]
    exact List.prefix_append _ _
  · -- at least the line end is lost
    have hboth := hcut.symm.trans ((congrArg ByteArray.toList hsame).trans htext)
    have hnone := List.map_eq_nil_iff.mp (List.self_eq_append_right.mp hboth)
    exact List.append_ne_nil_of_right_ne_nil _ (List.cons_ne_nil _ _) hnone
  · have hpart : (toString root).toList <+: spaced [(toString b.root).toList] := by
      rw [spaced_singleton]
      exact hleft.text
    have hlines := byteLines_cut hw (show fileFields schema c.layout b = _ ++ _ :: [] by
      rw [fileFields, b.fields_eq, List.append_assoc]) hpart hcut
    rw [lines_rooted] at hlines
    rw [← hname] at hread
    obtain ⟨_, _, c', hload, htuples, _⟩ := load_of_accommodates hw hp hl hnow
      (hr'.arity_eq_of_bound hbound) hperm hread hlines hm (hproper.rooted hleft) htested hroom
    exact ⟨_, c', hload, htuples⟩

end Reached

end Factbase.Relation
