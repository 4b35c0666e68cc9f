import Factbase.Files
import Factbase.Proofs.Outcome
import Factbase.Proofs.Text.Cutting

/-!
# Files that are written

Where a path leads does not depend on what the files hold, so that what is written through a path is
read through it.

* `locate_of_ok`: **a path that leads to a file leads there whatever files there are**;
* `name_of_locate`: a file has the name that the path ends with;
* `read?_of_write?`: **what was written is read**, and through other paths what was there before
  (`read?_of_write?_of_ne`).
-/

namespace Factbase.Files

open Text

/-! ## 1. Paths -/

variable {files files' : Files} {path : Path}

/-- The parts of a path that lead somewhere lead there whatever files there are. -/
theorem walk_of_ok (files' : Files) : ∀ {parts : List (List Char)} {folder : Folder} {goal : Goal},
    files.walk folder parts = .ok goal → files'.walk folder parts = .ok goal
  | [], _, _, h => h
  | part :: rest, folder, goal, h => by
      rw [walk] at h ⊢
      split
      · rename_i hstay
        rw [if_pos hstay] at h
        exact walk_of_ok files' h
      · rename_i hstay
        rw [if_neg hstay] at h
        split
        · rename_i hup
          rw [if_pos hup] at h
          exact walk_of_ok files' h
        · rename_i hup
          rw [if_neg hup] at h
          dsimp only at h ⊢
          split
          · rename_i hlong
            rw [if_pos hlong] at h
            cases h
          · rename_i hlong
            rw [if_neg hlong] at h
            cases hchild : folder.child? (String.ofList part) with
            | some inner =>
                rw [hchild] at h
                exact walk_of_ok files' h
            | none =>
                rw [hchild] at h
                dsimp only at h ⊢
                -- the files decide only which error there is
                by_cases hlast : rest.isEmpty = true
                · rw [if_pos hlast] at h ⊢
                  exact h
                · rw [if_neg hlast] at h
                  split at h <;> cases h

/-- **A path that leads to a file leads there whatever files there are.** -/
theorem locate_of_ok {address : Address} (h : files.locate path = .ok address) :
    files'.locate path = .ok address := by
  unfold locate at h ⊢
  split at h
  · cases h
  · rename_i hnul
    rw [if_neg hnul]
    split at h
    · cases h
    · rename_i hlong
      rw [if_neg hlong]
      cases hwalk : files.walk path.start path.parts with
      | error error => rw [hwalk] at h; cases h
      | ok goal =>
          rw [hwalk] at h
          rw [walk_of_ok files' hwalk]
          exact h

/-! ## 2. Names of files -/

/-- A file that parts lead to has the last one for its name. -/
theorem name_of_walk : ∀ {parts : List (List Char)} {folder : Folder} {address : Address},
    files.walk folder parts = .ok (.file address) →
    ∃ part, parts.getLast? = some part ∧ address.name = String.ofList part
  | [], _, _, h => by cases h
  | part :: rest, folder, address, h => by
      have hbehind : ∀ {inner : Folder}, files.walk inner rest = .ok (.file address) →
          ∃ last, (part :: rest).getLast? = some last ∧ address.name = String.ofList last :=
        fun hrest => by
          obtain ⟨last, hlast, hname⟩ := name_of_walk hrest
          exact ⟨last, List.mem_getLast?_cons hlast, hname⟩
      rw [walk] at h
      split at h
      · exact hbehind h
      · split at h
        · exact hbehind h
        · dsimp only at h
          split at h
          · cases h
          · split at h
            · exact hbehind h
            · split at h
              · rename_i hlast
                obtain rfl := List.isEmpty_iff.mp hlast
                cases h
                exact ⟨part, rfl, rfl⟩
              · split at h <;> cases h

/-- Going on from a path by a name ends as the name does. -/
theorem parts_join (path : Path) (front suffix : String) : ∃ cs,
    (path.join (front ++ suffix)).parts = pieces '/' (cs ++ suffix.toList) := by
  have happend : ∀ more : String, ∃ cs, (path.append (more ++ suffix)).parts =
      pieces '/' (cs ++ suffix.toList) := fun more => by
    cases path with
    | scratch rest => exact ⟨(rest ++ more).toList, by simp [Path.append, Path.parts]⟩
    | absolute text => exact ⟨(text ++ more).toList, by simp [Path.append, Path.parts]⟩
  unfold Path.join
  split
  · exact ⟨front.toList, by simp [Path.parts]⟩
  · split
    · exact happend front
    · rw [← String.append_assoc]
      exact happend ("/" ++ front)

/-- **A file has the name that the path ends with**, as far as this is one name. -/
theorem name_of_locate {path : Path} {front suffix : String} (h : '/' ∉ suffix.toList)
    {address : Address} (hlocate : files.locate (path.join (front ++ suffix)) = .ok address) :
    ∃ start, address.name.toList = start ++ suffix.toList := by
  unfold locate at hlocate
  split at hlocate
  · cases hlocate
  · split at hlocate
    · cases hlocate
    · split at hlocate
      · rename_i hwalk
        obtain rfl := Except.ok.inj hlocate
        obtain ⟨cs, hparts⟩ := parts_join path front suffix
        obtain ⟨start, hlast⟩ := getLast?_pieces h cs
        obtain ⟨part, hpart, hname⟩ := name_of_walk hwalk
        rw [hparts, hlast] at hpart
        rw [hname, String.toList_ofList, ← Option.some.inj hpart]
        exact ⟨start, rfl⟩
      · cases hlocate
      · cases hlocate

/-- Files of different kinds differ. -/
theorem address_ne {path path' : Path} {front front' suffix suffix' : String}
    (h : '/' ∉ suffix.toList) (h' : '/' ∉ suffix'.toList)
    (hlength : suffix.toList.length = suffix'.toList.length) (hne : suffix ≠ suffix')
    {address address' : Address}
    (hlocate : files.locate (path.join (front ++ suffix)) = .ok address)
    (hlocate' : files.locate (path'.join (front' ++ suffix')) = .ok address') :
    address ≠ address' := by
  rintro rfl
  obtain ⟨start, hname⟩ := name_of_locate h hlocate
  obtain ⟨start', hname'⟩ := name_of_locate h' hlocate'
  rw [hname] at hname'
  exact hne (String.toList_inj.mp (List.append_inj' hname' hlength).2)

/-! ## 3. Contents of files -/

/-- **What was written is read.** -/
theorem read?_of_write? {data : ByteArray} (h : files.write? path data = .ok files') :
    files'.read? path = .ok data := by
  obtain ⟨address, hlocate, h⟩ := ok_of_bind h
  obtain rfl := Except.ok.inj h
  refine bind_eq_ok (locate_of_ok hlocate) ?_
  rw [Std.HashMap.getElem?_insert_self]
  rfl

/-- What is read is what the file has that the path leads to. -/
theorem read?_congr {address : Address} (hlocate : files.locate path = .ok address)
    (h : files'.entries[address]? = files.entries[address]?) :
    files'.read? path = files.read? path := by
  rw [read?, read?, hlocate, locate_of_ok hlocate]
  dsimp only [bind, Except.bind]
  rw [h]

/-- Writing leaves other files as they are. -/
theorem read?_of_write?_of_ne {path' : Path} {address address' : Address}
    (hlocate : files.locate path = .ok address) (hlocate' : files.locate path' = .ok address')
    (hne : address ≠ address') {data : ByteArray} (h : files.write? path' data = .ok files') :
    files'.read? path = files.read? path := by
  obtain ⟨address'', hwritten, h⟩ := ok_of_bind h
  obtain rfl := Except.ok.inj (hwritten.symm.trans hlocate')
  obtain rfl := Except.ok.inj h
  refine read?_congr hlocate ?_
  rw [Std.HashMap.getElem?_insert, if_neg]
  exact fun hsame => hne (beq_iff_eq.mp hsame).symm

/-- A text is read from its bytes. -/
theorem readText?_eq {text : String} (h : files.read? path = .ok text.toUTF8) :
    files.readText? path = .ok text := by
  have hdecode : String.fromUTF8? text.toUTF8 = some text := dif_pos text.isValidUTF8
  refine bind_eq_ok h ?_
  rw [hdecode]
  rfl

end Factbase.Files
