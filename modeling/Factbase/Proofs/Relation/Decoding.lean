import Factbase.Proofs.Files
import Factbase.Proofs.Relation.Combining
import Factbase.Proofs.Relation.Enumerating
import Factbase.Proofs.Relation.Opening

/-!
# Tuples as values and as text

A tuple whose indices are below the present sizes of its domains stands for values, and has a line
of canonical texts.

* `takeTuples_eq`: an open relation gives the tuples that its cursor lists;
* `decodeTuple_of_inside`, `tupleLines_of_inside`: **a tuple inside its domains has values and a
  line**;
* `values_of_inside`: **where all tuples are inside, every one comes as values**;
* `print_eq_ok`, `print_of_inside`: **printing then writes a line for every tuple and closes the
  relation, unless a file is refused.**
-/

namespace Factbase

/-! ## 1. Domains -/

namespace Universe

variable {u : Universe} {index : Nat} (h : index < u.size)

include h

/-- An index below the size has a value. -/
theorem exists_get? : ∃ v, u.get? index = some v := by
  cases u with
  | strings d => exact ⟨_, congrArg (Option.map Value.string) (Array.getElem?_eq_getElem h)⟩
  | words d => exact ⟨_, congrArg (Option.map Value.word) (Array.getElem?_eq_getElem h)⟩

/-- An index below the size has a canonical text. -/
theorem exists_canonAt : ∃ text, u.canonAt index = .ok text := by
  cases u with
  | strings d =>
      have hget : d.get? index = some _ := Array.getElem?_eq_getElem h
      exact ⟨_, by rw [canonAt, Domain.canonAt, Domain.get, hget]; rfl⟩
  | words d =>
      have hget : d.get? index = some _ := Array.getElem?_eq_getElem h
      exact ⟨_, by rw [canonAt, Domain.canonAt, Domain.get, hget]; rfl⟩

end Universe

namespace Relation

open Diagram

/-! ## 2. Tuples -/

/-- The types are those of the slots' domains. -/
def Schema.HasTypes (cat : Catalog) (schema : Schema) (types : List ElementType) : Prop :=
  ∀ (slot : Nat) (type : ElementType), types[slot]? = some type →
    (schema.domain cat slot).type = type

section Tuples

variable {cat : Catalog} {schema : Schema} {t : List Nat}

/-- The items of a tuple of indices. -/
theorem getElem?_items_ofIndices {slot : Nat} {item : Int}
    (h : (ofIndices t).items[slot]? = some item) : t[slot]? = some item.toNat := by
  rw [ofIndices, List.getElem?_map, Option.map_eq_some_iff] at h
  obtain ⟨index, hindex, rfl⟩ := h
  exact hindex

variable (ht : schema.Inside cat t)

include ht

/-- **A tuple inside its domains has values.** -/
theorem decodeTuple_of_inside {types : List ElementType} (htypes : schema.HasTypes cat types) :
    ∃ vs, decodeTuple cat schema types (ofIndices t) = .ok vs := by
  have hvalues : ∀ p ∈ (types.zip (ofIndices t).items).zipIdx,
      ∃ v, valueAt (schema.domain cat p.2) p.2 p.1.1 p.1.2.toNat = .ok v := by
    intro p hmem
    obtain ⟨htype, hitem⟩ := List.getElem?_zip_eq_some.mp (List.mem_zipIdx_iff_getElem?.mp hmem)
    obtain ⟨v, hv⟩ := Universe.exists_get? (ht p.2 _ (getElem?_items_ofIndices hitem))
    exact ⟨v, by rw [valueAt, if_neg (not_not.mpr (htypes p.2 _ htype)), hv]⟩
  obtain ⟨vs, hvs⟩ := exists_mapM_eq_ok hvalues
  exact ⟨vs, congrArg (Except.mapError (RelationError.mk schema.name)) hvs⟩

/-- **A tuple inside its domains has a line.** -/
theorem tupleLine_of_inside : ∃ line, tupleLine cat schema (ofIndices t) = .ok line := by
  have htexts : ∀ p ∈ (ofIndices t).items.zipIdx,
      ∃ text, (schema.domain cat p.2).canonAt p.1.toNat = .ok text := fun p hmem =>
    Universe.exists_canonAt
      (ht p.2 _ (getElem?_items_ofIndices (List.mem_zipIdx_iff_getElem?.mp hmem)))
  obtain ⟨texts, htexts⟩ := exists_mapM_eq_ok htexts
  exact ⟨_, bind_eq_ok htexts rfl⟩

omit ht in
/-- So have all tuples of a list, and there is no fault. -/
theorem tupleLines_of_inside {ts : List (List Nat)} (hts : ∀ t ∈ ts, schema.Inside cat t) :
    (tupleLines cat schema (ts.map ofIndices)).2 = none := by
  induction ts with
  | nil => rfl
  | cons t ts ih =>
      obtain ⟨ht, hts⟩ := List.forall_mem_cons.mp hts
      obtain ⟨line, hline⟩ := tupleLine_of_inside ht
      rw [List.map_cons, tupleLines, hline]
      exact ih hts

end Tuples

/-! ## 3. Relations -/

section Opened

variable {r : Relation} {schema : Schema} {c : Contents} (hopen : r.stage = .opened schema c)
  (hc : c.Sound schema)

include hopen hc

/-- **An open relation gives the tuples that its cursor lists**, or the first of them. -/
theorem takeTuples_eq (limit : Option Nat) :
    (do takeTuples (← tuples) limit : RelationM (List Tuple)) r =
      .ok ((limit.elim c.listed c.listed.take).map ofIndices) r := by
  have hlen : (c.listed.map ofIndices).length ≤ Cursor.bound c.manager := by
    rw [List.length_map]
    exact hc.spells.length_listed_le
  have htake := Cursor.toList_eq hc.spells.lists hlen limit
  rw [bind_of_ok (tuples_eq hopen hc)]
  refine (onManager_ask_eq hopen htake).trans ?_
  cases limit with
  | none => rfl
  | some limit => exact congrArg (EStateM.Result.ok · r) List.map_take.symm

/-- The values are what is made of the tuples. -/
theorem values_eq (cat : Catalog) {types : List ElementType}
    (harity : types.length = c.layout.arity) (limit : Option Nat) : values cat types limit r =
      .ok (((limit.elim c.listed c.listed.take).map ofIndices).map
        (decodeTuple cat schema types)) r := by
  have hcheck : orProblem (checkArity c.layout types.length) r = .ok () r :=
    orProblem_eq_ok (if_pos harity)
  have htake := takeTuples_eq hopen hc limit
  rw [bind_of_ok (tuples_eq hopen hc)] at htake
  unfold values
  rw [bind_of_ok (opening_eq hopen)]
  dsimp only
  rw [bind_of_ok hcheck, bind_of_ok (tuples_eq hopen hc), bind_of_ok htake]
  rfl

variable {cat : Catalog} (hin : ∀ t ∈ c.tuples, schema.Inside cat t)

include hin

/-- **Where all tuples are inside their domains, every one comes as values.** -/
theorem values_of_inside {types : List ElementType} (harity : types.length = c.layout.arity)
    (htypes : schema.HasTypes cat types) (limit : Option Nat) :
    ∃ answers, values cat types limit r = .ok answers r ∧
      answers.length = (limit.elim c.listed c.listed.take).length ∧
      ∀ answer ∈ answers, ∃ vs, answer = .ok vs := by
  refine ⟨_, values_eq hopen hc cat harity limit, by rw [List.length_map, List.length_map],
    fun answer hanswer => ?_⟩
  obtain ⟨_, hmem, rfl⟩ := List.mem_map.mp hanswer
  obtain ⟨t, ht, rfl⟩ := List.mem_map.mp hmem
  have hlisted : t ∈ c.listed := by
    cases limit with
    | none => exact ht
    | some limit => exact List.mem_of_mem_take ht
  exact decodeTuple_of_inside (hin t (hc.mem_listed.mp hlisted)) htypes

/-- **Where the path leads to a file, printing writes a line for every tuple and closes.** -/
theorem print_eq_ok {folder : Path} {files : Files} {address : Address}
    (hlocate : files.locate (folder.join (textFile r.name)) = .ok address) :
    ∃ files', print cat folder (r, files) = .ok () ({ r with stage := .closed schema }, files') ∧
      files'.readText? (folder.join (textFile r.name)) =
        .ok (String.join (tupleLines cat schema (c.listed.map ofIndices)).1) := by
  have hlisted : ∀ t ∈ c.listed, schema.Inside cat t := fun t ht => hin t (hc.mem_listed.mp ht)
  have hget : (get : StorageM (Relation × Files)) (r, files) = .ok (r, files) (r, files) := rfl
  have hwrite : ∀ (files : Files) (text : String), files.locate (folder.join (textFile r.name)) =
      .ok address → ∃ files', files.writeText? (folder.join (textFile r.name)) text = .ok files' :=
    fun files text hlocate => ⟨_, bind_eq_ok hlocate rfl⟩
  obtain ⟨files₁, hfirst⟩ := hwrite files "" hlocate
  obtain ⟨files₂, hsecond⟩ := hwrite files₁
    (String.join (tupleLines cat schema (c.listed.map ofIndices)).1) (Files.locate_of_ok hlocate)
  refine ⟨files₂, ?_, Files.readText?_eq (Files.read?_of_write? hsecond)⟩
  unfold print
  rw [bind_of_ok hget]
  dsimp only
  rw [bind_of_ok (writeFile_eq_ok hfirst), bind_of_ok (onRelation_eq_ok (opening_eq hopen) files₁)]
  dsimp only
  rw [bind_of_ok (onRelation_eq_ok (takeTuples_eq hopen hc none) files₁), Option.elim_none]
  refine (bind_of_ok (writeFile_eq_ok hsecond)).trans ?_
  rw [tupleLines_of_inside hlisted]
  exact onRelation_eq_ok (close_eq hopen) files₂

/-- **Printing closes the relation, unless a file is refused.** -/
theorem print_of_inside (folder : Path) (files : Files) :
    (∃ files', print cat folder (r, files) = .ok () ({ r with stage := .closed schema }, files')) ∨
    ∃ path error files', print cat folder (r, files) =
      .error (.error ⟨r.name, .access path error⟩) (r, files') := by
  cases hlocate : files.locate (folder.join (textFile r.name)) with
  | ok address =>
      obtain ⟨files', run, _⟩ := print_eq_ok hopen hc hin hlocate
      exact .inl ⟨files', run⟩
  | error error =>
      have hwrite : files.writeText? (folder.join (textFile r.name)) "" = .error error := by
        rw [Files.writeText?, Files.write?, hlocate]
        rfl
      have hget : (get : StorageM (Relation × Files)) (r, files) = .ok (r, files) (r, files) := rfl
      exact .inr ⟨_, error, files,
        (bind_of_ok hget).trans (bind_eq_error (writeFile_eq_error hwrite))⟩

end Opened

end Relation

end Factbase
