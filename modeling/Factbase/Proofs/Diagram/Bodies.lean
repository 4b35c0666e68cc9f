import Factbase.Diagram.Body.Reader
import Factbase.Proofs.Outcome
import Factbase.Proofs.Text.Rendering

/-!
# Bodies as text

The text of a body is a line for the two counts, one for every decision and one for the root. What
a writer makes has consecutive ids, edges that lead to leaves or back to earlier decisions, and
numbers that are not too large.

* `Body.splitLines_render`: **the lines of a body's text**;
* `Body.Proper`: what a writer makes;
* `map_numbered`, `isBlankLine_spaced`: the lines that say something.
-/

namespace Factbase.Diagram

open Text

/-! ## 1. Texts -/

/-- The fields of a line. -/
def BodyLine.fields (line : BodyLine) : List (List Char) :=
  [(toString line.id).toList, (toString line.var).toList, (toString line.low).toList,
    (toString line.high).toList]

/-- Every field is a number. -/
theorem BodyLine.numeric_fields (line : BodyLine) :
    ∀ cs ∈ line.fields, ∃ i : Int, cs = (toString i).toList := by
  intro cs hcs
  simp only [fields, List.mem_cons, List.not_mem_nil, or_false] at hcs
  rcases hcs with rfl | rfl | rfl | rfl
  · exact ⟨line.id, rfl⟩
  · exact ⟨line.var, rfl⟩
  · exact ⟨line.low, rfl⟩
  · exact ⟨line.high, rfl⟩

theorem BodyLine.word_fields (line : BodyLine) : ∀ cs ∈ line.fields, Word cs := fun cs hcs => by
  obtain ⟨i, rfl⟩ := line.numeric_fields cs hcs
  exact word_toString i

theorem BodyLine.toList_render (line : BodyLine) :
    line.render.toList = spaced line.fields ++ ['\n'] := by
  simp only [render, String.toList_append, fields, spaced, List.intercalate_cons_cons,
    List.intercalate_singleton, List.append_assoc]
  rfl

namespace Body

/-- The fields of the lines of a body. -/
def fields (b : Body) : List (List (List Char)) :=
  [(toString b.lines.length).toList, (toString b.numVars).toList] ::
    (b.lines.map BodyLine.fields ++ [[(toString b.root).toList]])

/-- Every field is a number. -/
theorem numeric_fields (b : Body) :
    ∀ line ∈ b.fields, ∀ cs ∈ line, ∃ i : Int, cs = (toString i).toList := by
  intro line hline cs hcs
  simp only [fields, List.mem_cons, List.mem_append, List.mem_map, List.not_mem_nil,
    or_false] at hline
  rcases hline with rfl | ⟨decision, _, rfl⟩ | rfl
  · simp only [List.mem_cons, List.not_mem_nil, or_false] at hcs
    rcases hcs with rfl | rfl
    · exact ⟨b.lines.length, rfl⟩
    · exact ⟨b.numVars, rfl⟩
  · exact decision.numeric_fields cs hcs
  · exact ⟨b.root, List.mem_singleton.mp hcs⟩

theorem word_fields (b : Body) : ∀ line ∈ b.fields, ∀ cs ∈ line, Word cs :=
  fun line hline cs hcs => by
    obtain ⟨i, rfl⟩ := b.numeric_fields line hline cs hcs
    exact word_toString i

theorem toList_render (b : Body) : b.render.toList = unlines '\n' (b.fields.map spaced) := by
  have hlines : (b.lines.map BodyLine.render).flatMap String.toList =
      unlines '\n' ((b.lines.map BodyLine.fields).map spaced) := by
    simp only [unlines, List.flatMap_map]
    exact List.flatMap_congr fun line _ => line.toList_render
  simp only [render, String.toList_append, String.toList_join, hlines, fields, List.cons_append,
    List.map_cons, List.map_append, List.map_nil, unlines, List.flatMap_cons,
    List.flatMap_append, List.flatMap_nil, spaced, List.intercalate_cons_cons,
    List.intercalate_singleton, List.append_assoc, List.append_nil]
  rfl

/-- **The lines of a body's text.** -/
theorem splitLines_render (b : Body) : splitLines b.render.toList = b.fields.map spaced := by
  rw [splitLines, b.toList_render]
  refine linesFrom_unlines fun line hline => ?_
  obtain ⟨fields, hfields, rfl⟩ := List.mem_map.mp hline
  exact unbroken_spaced (b.word_fields fields hfields)

/-! ## 2. Proper bodies -/

/-- The edge leads to a leaf or to a decision with an id below a bound. -/
def Leads (bound : Nat) (edge : Int) : Prop := edge ≠ 0 ∧ edge.natAbs < bound

end Body

/-- The decision has the id that is next, a variable below the bound, and leads back. -/
structure BodyLine.Proper (varCount next : Nat) (line : BodyLine) : Prop where
  id : line.id = next
  var : line.var ≠ 0 ∧ line.var ≤ varCount
  low : Body.Leads next line.low
  high : Body.Leads next line.high

/-- A line as the decision that is read from it. -/
def BodyLine.step (remap : Nat → Option Nat) (line : BodyLine) : Body.Step :=
  ⟨line.id, (remap line.var).getD 0, line.low, line.high⟩

namespace Body

/-- The ids are consecutive, all edges lead back, and no number is too large. -/
structure Proper (b : Body) : Prop where
  lines : ∀ (i : Nat) (line : BodyLine), b.lines[i]? = some line → line.Proper b.numVars (i + 2)
  root : Leads (b.lines.length + 2) b.root
  numVars : b.numVars < twoPow 32
  vars : ∀ line ∈ b.lines, line.var < twoPow 31
  count : b.lines.length + 2 ≤ twoPow 31

/-! ## 3. Lines that say something -/

/-- The lines that say something keep their order. -/
theorem map_numbered (lines : List (Option (List Char))) :
    (numbered lines).map Prod.snd = lines.filter fun line => !isBlankLine line := by
  have hmap : (lines.mapIdx fun i line => (i + 1, line)).map Prod.snd = lines := by
    refine List.ext_getElem (by simp) fun i hi hi' => ?_
    rw [List.getElem_map, List.getElem_mapIdx]
  conv_rhs => rw [← hmap, List.filter_map]
  rfl

theorem isBlankLine_spaced {fields : List (List Char)} (hne : fields ≠ [])
    (h : ∀ cs ∈ fields, Word cs) : isBlankLine (some (spaced fields)) = false := by
  rw [Bool.eq_false_iff]
  intro hall
  rw [isBlankLine, List.all_eq_true] at hall
  -- a text of blanks has no words
  have hwords : words (spaced fields) = [] := wordsFrom_append_blanks hall [] []
  exact hne ((words_spaced h).symm.trans hwords)

end Body

end Factbase.Diagram
