import Factbase.Proofs.Relation.Confinement
import Factbase.Proofs.Relation.Filling
import Factbase.Proofs.Relation.Storing

/-!
# Calls in the wrong state

A call that asks for another state of the relation is refused. Loading, writing, saving and closing
ask before they touch a file. Printing creates its file first, so that the file is empty behind a
call that is refused.

* `StorageCall`: the calls that use files or give the contents up, and the state that each requires;
* `StorageCall.run_eq_of_misuse`, `print_of_misuse`: **what a call in another state comes to**;
* `attempt_misuse`: **any number of them leaves the relation and all files as they are**, but for
  the files that are printed to, which are empty then;
* `saved_survives`: so the file of a saved relation outlasts every call on it;
* `exists_emptied`: **a printed file does not outlast another print.**
-/

namespace Factbase.Relation

open Diagram

/-! ## 1. Calls -/

/-- A call that uses files or gives the contents up, with the domains and the environment as they
are then. -/
inductive StorageCall where
  | load (cat : Catalog) (env : Environment) (folder : Path)
  | writeTo (folder : Path)
  | save (folder : Path)
  | print (cat : Catalog) (folder : Path)
  | close

namespace StorageCall

/-- Make the call. -/
def run : StorageCall → StorageM Unit
  | .load cat env folder => fun s =>
      onRelation (do let _ ← Relation.load cat env s.2 folder) s
  | .writeTo folder => Relation.writeTo folder
  | .save folder => Relation.save folder
  | .print cat folder => Relation.print cat folder
  | .close => onRelation Relation.close

/-- The state that the call requires. -/
def required : StorageCall → State
  | .load _ _ _ => .bound
  | _ => .opened

/-- What is wrong with the call in another state. -/
def misuse (r : Relation) : StorageCall → Fault
  | .load _ _ _ => .notOpenable r.name r.state
  | .close => .notClosable r.name r.state
  | _ => .notOpen r.name r.state

/-- The call prints to the file. -/
def PrintsTo (r : Relation) (address : Address) (call : StorageCall) : Prop :=
  ∃ cat folder, call = .print cat folder ∧
    Files.locate {} (folder.join (textFile r.name)) = .ok address

/-! ## 2. One call -/

section Misuse

variable {r : Relation} (files : Files)

/-- A relation that is not opened refuses what needs its contents. -/
theorem opening_eq_error (h : r.state ≠ .opened) :
    opening r = .error (.fault (.notOpen r.name r.state)) r := by
  rcases r.opened_or with ⟨schema, c, hopen⟩ | hrefused
  · exact absurd (by rw [state, hopen]) h
  · exact hrefused

/-- **A call in another state is refused before it touches a file**, unless it prints. -/
theorem run_eq_of_misuse {call : StorageCall} (h : r.state ≠ call.required)
    (hprint : ∀ cat folder, call ≠ .print cat folder) :
    call.run (r, files) = .error (.fault (call.misuse r)) (r, files) := by
  cases call with
  | load cat env folder =>
      refine onRelation_eq_error (bind_eq_error ?_) files
      have hrefused : r.prepare cat env = .error (.notOpenable r.name r.state) := by
        unfold prepare
        cases hstage : r.stage with
        | bound schema => exact absurd (by rw [state, hstage]; rfl) h
        | _ => rfl
      simp only [Relation.load, hrefused, misuse]
  | writeTo folder => exact bind_eq_error (onRelation_eq_error (opening_eq_error h) files)
  | save folder =>
      exact bind_eq_error (bind_eq_error (onRelation_eq_error (opening_eq_error h) files))
  | print cat folder => exact absurd rfl (hprint cat folder)
  | close =>
      refine onRelation_eq_error ?_ files
      unfold Relation.close
      cases hstage : r.stage with
      | opened schema c => exact absurd (by rw [state, hstage]; rfl) h
      | _ => rfl

/-- **A print in another state creates its file** and is refused then, or is refused because there
is no such file. -/
theorem print_of_misuse (h : r.state ≠ .opened) (cat : Catalog) (folder : Path) :
    (∀ address, files.locate (folder.join (textFile r.name)) = .ok address →
      Relation.print cat folder (r, files) = .error (.fault (.notOpen r.name r.state))
        (r, ⟨files.entries.insert address "".toUTF8⟩)) ∧
    ∀ error, files.locate (folder.join (textFile r.name)) = .error error →
      Relation.print cat folder (r, files) =
        .error (.error ⟨r.name, .access (folder.join (textFile r.name)).text error⟩)
          (r, files) := by
  have hget : (get : StorageM (Relation × Files)) (r, files) = .ok (r, files) (r, files) := rfl
  unfold Relation.print
  rw [bind_of_ok hget]
  dsimp only
  refine ⟨fun address hlocate => ?_, fun error hlocate => ?_⟩
  · have hwrite : files.writeText? (folder.join (textFile r.name)) "" =
        .ok ⟨files.entries.insert address "".toUTF8⟩ := bind_eq_ok hlocate rfl
    exact (bind_of_ok (writeFile_eq_ok hwrite)).trans
      (bind_eq_error (onRelation_eq_error (opening_eq_error h) _))
  · have hwrite : files.writeText? (folder.join (textFile r.name)) "" = .error error := by
      rw [Files.writeText?, Files.write?, hlocate]
      rfl
    exact bind_eq_error (writeFile_eq_error hwrite)

/-- **What a call in another state leaves**: the relation, and all files but the one that it prints
to, which is empty. -/
theorem after_misuse {call : StorageCall} (h : r.state ≠ call.required) :
    ∃ files', after call.run (r, files) = (r, files') ∧ ∀ address,
      (call.PrintsTo r address → files'.entries[address]? = some "".toUTF8) ∧
      (¬ call.PrintsTo r address → files'.entries[address]? = files.entries[address]?) := by
  by_cases hprint : ∃ cat folder, call = .print cat folder
  · obtain ⟨cat, folder, rfl⟩ := hprint
    obtain ⟨hcreated, hrefused⟩ := print_of_misuse files h cat folder
    cases hlocate : files.locate (folder.join (textFile r.name)) with
    | ok address =>
        refine ⟨_, by rw [after, run, hcreated address hlocate], fun other =>
          ⟨?_, fun hother => ?_⟩⟩
        · rintro ⟨_, _, hcall, hother⟩
          obtain ⟨rfl, rfl⟩ := StorageCall.print.inj hcall
          obtain rfl := Except.ok.inj (hlocate.symm.trans (Files.locate_of_ok hother))
          exact Std.HashMap.getElem?_insert_self
        · rw [Std.HashMap.getElem?_insert, if_neg]
          intro hsame
          obtain rfl := beq_iff_eq.mp hsame
          exact hother ⟨cat, folder, rfl, Files.locate_of_ok hlocate⟩
    | error error =>
        refine ⟨files, by rw [after, run, hrefused error hlocate], fun other =>
          ⟨?_, fun _ => rfl⟩⟩
        rintro ⟨_, _, hcall, hother⟩
        obtain ⟨rfl, rfl⟩ := StorageCall.print.inj hcall
        cases hlocate.symm.trans (Files.locate_of_ok hother)
  · have hother : ∀ cat folder, call ≠ .print cat folder := fun cat folder hcall =>
      hprint ⟨cat, folder, hcall⟩
    refine ⟨files, by rw [after, run_eq_of_misuse files h hother], fun address =>
      ⟨?_, fun _ => rfl⟩⟩
    rintro ⟨cat, folder, hcall, _⟩
    exact absurd hcall (hother cat folder)

end Misuse

end StorageCall

/-! ## 3. Many calls -/

/-- The relation and the files behind calls, answered and refused ones. -/
def attempt (calls : List StorageCall) (s : Relation × Files) : Relation × Files :=
  calls.foldl (fun s call => after call.run s) s

/-- **Calls in another state leave the relation and all files as they are**, but for the files that
are printed to, which are empty then. -/
theorem attempt_misuse {r : Relation} : ∀ {calls : List StorageCall},
    (∀ call ∈ calls, r.state ≠ call.required) → ∀ files : Files,
    (attempt calls (r, files)).1 = r ∧ ∀ address,
      ((∃ call ∈ calls, call.PrintsTo r address) →
        (attempt calls (r, files)).2.entries[address]? = some "".toUTF8) ∧
      ((∀ call ∈ calls, ¬ call.PrintsTo r address) →
        (attempt calls (r, files)).2.entries[address]? = files.entries[address]?)
  | [], _, files => ⟨rfl, fun _ => ⟨fun ⟨_, hcall, _⟩ => absurd hcall List.not_mem_nil,
      fun _ => rfl⟩⟩
  | call :: calls, hmisuse, files => by
      obtain ⟨hcall, hcalls⟩ := List.forall_mem_cons.mp hmisuse
      obtain ⟨files₁, hafter, hfirst⟩ := call.after_misuse files hcall
      obtain ⟨hsame, hrest⟩ := attempt_misuse hcalls files₁
      have hattempt : attempt (call :: calls) (r, files) = attempt calls (r, files₁) := by
        rw [attempt, List.foldl_cons, hafter]
        rfl
      rw [hattempt]
      refine ⟨hsame, fun address => ⟨?_, fun hnone => ?_⟩⟩
      · rintro ⟨printing, hmem, hprints⟩
        by_cases hlater : ∃ call ∈ calls, call.PrintsTo r address
        · exact (hrest address).1 hlater
        · have hnone : ∀ call ∈ calls, ¬ call.PrintsTo r address := fun call hmem hprints =>
            hlater ⟨call, hmem, hprints⟩
          obtain rfl := (List.mem_cons.mp hmem).resolve_right fun hmem => hnone _ hmem hprints
          rw [(hrest address).2 hnone, (hfirst address).1 hprints]
      · obtain ⟨hfirstNot, hrestNot⟩ := List.forall_mem_cons.mp hnone
        rw [(hrest address).2 hrestNot, (hfirst address).2 hfirstNot]

/-- A closed relation is in no state that a call requires. -/
theorem StorageCall.ne_required {r : Relation} (h : r.state = .closed) (call : StorageCall) :
    r.state ≠ call.required := by
  rw [h]
  cases call <;> exact State.noConfusion

/-- No call prints to the file of a diagram, which has another name. -/
theorem StorageCall.not_printsTo {r : Relation} {files : Files} {folder : Path} {own : String}
    {address : Address} (hlocate : files.locate (folder.join (diagramFile own)) = .ok address)
    (call : StorageCall) : ¬ call.PrintsTo r address := by
  rintro ⟨cat, other, rfl, hprints⟩
  have hdiagram : Files.locate {} (folder.join (own ++ ".bdd")) = .ok address :=
    Files.locate_of_ok hlocate
  have htext : Files.locate {} (other.join (r.name ++ ".txt")) = .ok address := hprints
  refine Files.address_ne ?_ ?_ ?_ ?_ hdiagram htext rfl <;> decide

section Files

variable {r r' : Relation} {files files' : Files} {folder : Path}

/-- **The file of a relation that was saved outlasts all calls on it.** -/
theorem saved_survives (hr : Reached r) (hsave : save folder (r, files) = .ok () (r', files'))
    (calls : List StorageCall) : (attempt calls (r', files')).1 = r' ∧
      ∃ data, files'.read? (folder.join (diagramFile r.name)) = .ok data ∧
        (attempt calls (r', files')).2.read? (folder.join (diagramFile r.name)) = .ok data := by
  obtain ⟨_, ⟨r₁, files₁⟩, hwrite, hclose⟩ := run_ok_of_bind hsave
  rcases r.opened_or with ⟨schema, c, hopen⟩ | hrefused
  · have hc := hr.contents hopen
    obtain ⟨ids, hbody, _, _⟩ := Body.exists_body hc.manager hc.root hc.dependsOn
    obtain ⟨rfl, hread⟩ := of_writeTo_eq_ok hopen hbody hwrite
    obtain ⟨rfl, rfl⟩ := Prod.mk.inj (EStateM.Result.ok.inj
      ((onRelation_eq_ok (close_eq hopen) files₁).symm.trans hclose)).2
    have hname : r₁.name = schema.name := by rw [name, hopen]
    have hmisuse : ∀ call ∈ calls,
        Relation.state { r₁ with stage := .closed schema } ≠ call.required :=
      fun call _ => call.ne_required rfl
    obtain ⟨hsame, hentries⟩ := attempt_misuse hmisuse files₁
    obtain ⟨address, hlocate, _⟩ := ok_of_bind hread
    refine ⟨hsame, _, hname ▸ hread, ?_⟩
    rw [hname, Files.read?_congr hlocate
      ((hentries address).2 fun call _ => call.not_printsTo hlocate), hread]
  · cases (bind_eq_error (onRelation_eq_error hrefused files)).symm.trans hwrite

end Files

/-- **A printed file does not outlast another print.** The relation is closed behind the first one,
and the second one is refused when the file is empty already. -/
theorem exists_emptied : ∃ cat r r' files' files'',
    let path := (Path.scratch "").join (textFile r.name)
    Reached r ∧ print cat (.scratch "") (r, {}) = .ok () (r', files') ∧ r'.name = r.name ∧
    files'.readText? path = .ok "<9>\n" ∧
    print cat (.scratch "") (r', files') =
      .error (.fault (.notOpen r'.name .closed)) (r', files'') ∧
    files''.readText? path = .ok "" := by
  let cat : Catalog := ⟨#[.words ⟨"V", fun n => s!"{n}", ⟨#[7, 9], ∅⟩⟩]⟩
  let schema : Schema := ⟨"vP", ⟨["V0"], none, [[0]]⟩, [0]⟩
  obtain ⟨r, c, hr, hopen, _, htuples⟩ := exists_holding cat schema false rfl ⟨["V0"], none, rfl⟩
    rfl rfl (by decide) [[1]] (by decide)
  have hc := hr.contents hopen
  have hin : ∀ t ∈ c.tuples, schema.Inside cat t := fun t ht => by
    rw [htuples] at ht
    exact List.mem_singleton.mp ht ▸ Schema.inside_of_sizes (by decide)
  have hlisted : c.listed = [[1]] := by
    refine List.perm_singleton.mp ((List.perm_ext_iff_of_nodup hc.nodup_listed
      (List.nodup_singleton _)).mpr fun t => ?_)
    rw [hc.mem_listed, htuples]
    rfl
  have hname : r.name = "vP" := by rw [name, hopen]
  have hlocate : Files.locate {} ((Path.scratch "").join (textFile r.name)) =
      .ok ⟨.scratch, "vP.txt"⟩ := by
    unfold Files.locate
    rw [hname, String.contains_char_eq]
    rfl
  obtain ⟨files', run, hread⟩ := print_eq_ok hopen hc hin hlocate
  have hcreated := (StorageCall.print_of_misuse (r := { r with stage := .closed schema }) files'
    State.noConfusion cat (.scratch "")).1
  have hclosed : Relation.name { r with stage := .closed schema } = r.name := hname.symm
  rw [hclosed] at hcreated
  refine ⟨cat, r, _, files', _, hr, run, hclosed, ?_,
    hclosed ▸ hcreated _ (Files.locate_of_ok hlocate), ?_⟩
  · rw [hread, hlisted]
    decide +kernel
  · refine Files.readText?_eq (bind_eq_ok (Files.locate_of_ok hlocate) ?_)
    rw [Std.HashMap.getElem?_insert_self]
    rfl

end Factbase.Relation
