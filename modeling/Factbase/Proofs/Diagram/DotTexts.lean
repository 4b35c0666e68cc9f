import Factbase.Diagram.Dot
import Factbase.Proofs.Text.Rendering

/-!
# The text of a drawing

The text of a drawing is a list of statements, one on every line.

* `DotLine`: the statements in the standard style, where variables are labelled by their numbers;
* `DotLine.text_injective`: **different statements have different texts**, so that a text says what
  was drawn;
* `Drawing.statements`, `Drawing.splitLines_render`: **the lines of a drawing's text** are those of
  its statements.
-/

namespace Factbase.Diagram

open Text

/-! ## 1. Statements -/

/-- The kinds of blocks. -/
inductive RankKind where
  | sink
  | same
  | source
deriving DecidableEq

def RankKind.name : RankKind → String
  | .sink => "sink"
  | .same => "same"
  | .source => "source"

/-- A line of a drawing's text. -/
inductive DotLine where
  /-- The graph begins. -/
  | opening
  /-- Decisions are drawn as circles. -/
  | shapes
  /-- A block begins. -/
  | block (kind : RankKind)
  /-- The leaf for a value. -/
  | leaf (value : Bool)
  | decision (id var : Nat)
  | arrow (a : Arrow)
  /-- The marker of the root at a position. -/
  | marker (i : Nat) (root : Edge)
  /-- The arrow of a marker. -/
  | pointer (i target : Nat) (negated : Bool)
  /-- A block or the graph ends. -/
  | closing
deriving DecidableEq

/-- The label of a variable. -/
def numberLabel (v : Nat) : String := s!"x{v}"

namespace DotLine

/-- The style of an arrow. -/
def styleWords : ArrowKind → List (List Char)
  | .high => ["[style=solid];".toList]
  | .low => ["[style=dashed];".toList]
  | .lowNegated => ["[style=dotted,".toList, "dir=forward,".toList, "arrowhead=odot];".toList]

/-- The sign of a leaf. -/
def leafSign (value : Bool) : Char := if value then '1' else '0'

/-- The words of a line. -/
def words : DotLine → List (List Char)
  | opening => ["graph".toList, "\x7b".toList]
  | shapes => ["node".toList, "[shape=circle];".toList]
  | block kind => ["\x7b".toList, "rank=".toList ++ kind.name.toList]
  | leaf value => [[leafSign value], "[shape=square,".toList,
      "label=\"".toList ++ leafSign value :: "\"];".toList]
  | decision id var => [id.repr.toList, "[label=\"x".toList ++ (var.repr.toList ++ "\"];".toList)]
  | arrow a => a.source.repr.toList :: "--".toList :: a.target.repr.toList :: styleWords a.kind
  | marker i root => ['r' :: i.repr.toList, "[shape=rect,".toList,
      "label=\"".toList ++ (root.render.toList ++ "\"];".toList)]
  | pointer i target false => ['r' :: i.repr.toList, "--".toList, target.repr.toList ++ [';']]
  | pointer i target true => ['r' :: i.repr.toList, "--".toList, target.repr.toList,
      "[dir=forward,".toList, "arrowhead=odot];".toList]
  | closing => ["\x7d".toList]

/-- The text of a line. -/
def text (line : DotLine) : List Char := spaced line.words

end DotLine

theorem text_declaration (p : Placed) : (p.declaration numberLabel).toList =
    (DotLine.decision p.id p.node.var).text := by
  rw [Placed.declaration, show toString (numberLabel p.node.var) = "x" ++ p.node.var.repr from rfl]
  simp only [String.toList_append, List.append_assoc, DotLine.text, DotLine.words,
    spaced_cons_cons, spaced_singleton]
  rfl

theorem text_arrow (a : Arrow) : (a.line .standard).toList = (DotLine.arrow a).text := by
  obtain ⟨source, target, kind⟩ := a
  cases kind <;>
    simp only [Arrow.line, String.toList_append, List.append_assoc, DotLine.text, DotLine.words,
      DotLine.styleWords, spaced_cons_cons, spaced_singleton] <;> rfl

theorem text_marker (i : Nat) (marker : Marker) : (marker.declaration .standard i).toList =
    (DotLine.marker i marker.root).text := by
  simp only [Marker.declaration, String.toList_append, List.append_assoc, DotLine.text,
    DotLine.words, spaced_cons_cons, spaced_singleton]
  rfl

theorem text_pointer (i : Nat) (marker : Marker) : (marker.line i).toList =
    (DotLine.pointer i marker.target marker.negated).text := by
  obtain ⟨root, target, negated⟩ := marker
  cases negated <;>
    simp only [Marker.line, String.toList_append, List.append_assoc, DotLine.text, DotLine.words,
      spaced_cons_cons, spaced_singleton, if_true, Bool.false_eq_true, if_false] <;> rfl

namespace DotLine

/-! ## 2. Words -/

theorem word_render (e : Edge) : Word e.render.toList := by
  rw [Edge.render, String.toList_append]
  refine Word.append ?_ (word_repr e.index)
  split <;> exact word_of_all (by decide) (by decide)

/-- A line that is given letter by letter. -/
theorem words_of_all {ws : List (List Char)}
    (h : ws.all (fun cs => !cs.isEmpty && cs.all (!isBlank ·)) = true) : ∀ cs ∈ ws, Word cs :=
  fun cs hcs => by
    obtain ⟨hne, hall⟩ := Bool.and_eq_true_iff.mp (List.all_eq_true.mp h cs hcs)
    exact word_of_all (by rintro rfl; cases hne) hall

theorem word_words (line : DotLine) : ∀ cs ∈ line.words, Word cs := by
  have hroot : ∀ i : Nat, Word ('r' :: i.repr.toList) := fun i =>
    (word_of_all (by decide) (by decide) : Word ['r']).append (word_repr i)
  have hquoted : ∀ {first inner : List Char}, Word first → Word inner →
      Word (first ++ (inner ++ "\"];".toList)) := fun hfirst hinner =>
    hfirst.append (hinner.append (word_of_all (by decide) (by decide)))
  cases line with
  | block kind => cases kind <;> exact words_of_all (by decide)
  | leaf value => cases value <;> exact words_of_all (by decide)
  | decision id var =>
      refine List.forall_mem_cons.mpr ⟨word_repr id, List.forall_mem_singleton.mpr ?_⟩
      exact hquoted (word_of_all (by decide) (by decide)) (word_repr var)
  | arrow a =>
      refine List.forall_mem_cons.mpr ⟨word_repr a.source, List.forall_mem_cons.mpr
        ⟨word_of_all (by decide) (by decide), List.forall_mem_cons.mpr ⟨word_repr a.target, ?_⟩⟩⟩
      cases a.kind <;> exact words_of_all (by decide)
  | marker i root =>
      refine List.forall_mem_cons.mpr ⟨hroot i, List.forall_mem_cons.mpr
        ⟨word_of_all (by decide) (by decide), List.forall_mem_singleton.mpr ?_⟩⟩
      exact hquoted (word_of_all (by decide) (by decide)) (word_render root)
  | pointer i target negated =>
      cases negated with
      | false =>
          refine List.forall_mem_cons.mpr ⟨hroot i, List.forall_mem_cons.mpr
            ⟨word_of_all (by decide) (by decide), List.forall_mem_singleton.mpr ?_⟩⟩
          exact (word_repr target).append (word_of_all (by decide) (by decide))
      | true =>
          exact List.forall_mem_cons.mpr ⟨hroot i, List.forall_mem_cons.mpr
            ⟨word_of_all (by decide) (by decide), List.forall_mem_cons.mpr
              ⟨word_repr target, words_of_all (by decide)⟩⟩⟩
  | _ => exact words_of_all (by decide)

/-! ## 3. Different lines -/

/-- The first letter of the first word, any digit as 0, and the first two of the second word. -/
def stamp (ws : List (List Char)) : Option Char × Option (List Char) :=
  ((ws.head?.bind List.head?).map fun c => if c.isDigit then '0' else c, ws[1]?.map (·.take 2))

/-- The stamp of a line tells what it states. -/
def mark : DotLine → Option Char × Option (List Char)
  | opening => (some 'g', some ['\x7b'])
  | shapes => (some 'n', some ['[', 's'])
  | block _ => (some '\x7b', some ['r', 'a'])
  | leaf _ => (some '0', some ['[', 's'])
  | decision _ _ => (some '0', some ['[', 'l'])
  | arrow _ => (some '0', some ['-', '-'])
  | marker _ _ => (some 'r', some ['[', 's'])
  | pointer _ _ _ => (some 'r', some ['-', '-'])
  | closing => (some '\x7d', none)

theorem stamp_repr (n : Nat) (ws : List (List Char)) :
    stamp (n.repr.toList :: ws) = (some '0', ws.head?.map (·.take 2)) := by
  cases hn : n.repr.toList with
  | nil => exact absurd hn (repr_ne_nil n)
  | cons c cs =>
      have hc : c.isDigit = true :=
        isDigit_of_mem_repr (n := n) (by rw [hn]; exact List.mem_cons_self)
      simp [stamp, hc, List.head?_eq_getElem?]

theorem stamp_words (line : DotLine) : stamp line.words = line.mark := by
  cases line with
  | decision id var => exact stamp_repr id _
  | arrow a => exact stamp_repr a.source _
  | block kind => cases kind <;> rfl
  | leaf value => cases value <;> rfl
  | pointer i target negated => cases negated <;> rfl
  | _ => rfl

theorem repr_inj {n k : Nat} (h : n.repr.toList = k.repr.toList) : n = k :=
  Int.ofNat_inj.mp (toList_toString_inj (i := n) (j := k) h)

theorem render_inj {e f : Edge} (h : e.render.toList = f.render.toList) : e = f := by
  rw [Edge.render, Edge.render, String.toList_append, String.toList_append] at h
  cases he : e.negated <;> cases hf : f.negated <;> rw [he, hf] at h
  · exact Edge.eq_of_index_of_negated (repr_inj (List.append_cancel_left h)) (he.trans hf.symm)
  · cases List.head_eq_of_cons_eq h
  · cases List.head_eq_of_cons_eq h
  · exact Edge.eq_of_index_of_negated (repr_inj (List.append_cancel_left h)) (he.trans hf.symm)

theorem styleWords_inj {k k' : ArrowKind} (h : styleWords k = styleWords k') : k = k' := by
  revert h
  cases k <;> cases k' <;> decide

/-- **Different lines have different words.** -/
theorem words_injective {line line' : DotLine} (h : line.words = line'.words) : line = line' := by
  have hmark : line.mark = line'.mark := by rw [← stamp_words, h, stamp_words]
  -- lines of different kinds have different stamps
  cases line <;> cases line' <;> first | (simp [mark] at hmark; done) | skip
  case opening.opening => rfl
  case shapes.shapes => rfl
  case block.block kind kind' =>
    revert h
    cases kind <;> cases kind' <;> decide
  case leaf.leaf value value' =>
    revert h
    cases value <;> cases value' <;> decide
  case decision.decision id var id' var' =>
    simp only [words, List.cons.injEq, and_true, List.append_cancel_left_eq,
      List.append_cancel_right_eq] at h
    rw [repr_inj h.1, repr_inj h.2]
  case arrow.arrow a a' =>
    obtain ⟨source, target, kind⟩ := a
    obtain ⟨source', target', kind'⟩ := a'
    simp only [words, List.cons.injEq, true_and] at h
    obtain ⟨hsource, htarget, hkind⟩ := h
    rw [repr_inj hsource, repr_inj htarget, styleWords_inj hkind]
  case marker.marker i root i' root' =>
    simp only [words, List.cons.injEq, true_and, and_true, List.append_cancel_left_eq,
      List.append_cancel_right_eq] at h
    rw [repr_inj h.1, render_inj h.2]
  case pointer.pointer i target negated i' target' negated' =>
    cases negated <;> cases negated' <;>
      simp only [words, List.cons.injEq, true_and, and_true, List.append_cancel_right_eq,
        reduceCtorEq, and_false] at h
    all_goals rw [repr_inj h.1, repr_inj h.2]
  case closing.closing => rfl

theorem text_injective : Function.Injective text := fun line line' h => words_injective <| by
  rw [← words_spaced line.word_words, ← words_spaced line'.word_words]
  exact congrArg Text.words h

end DotLine

/-! ## 4. The lines of a drawing -/

/-- A block of statements. -/
def blockOf (kind : RankKind) (lines : List DotLine) : List DotLine :=
  .block kind :: lines ++ [.closing]

namespace Drawing

/-- The statements of a drawing. -/
def statements (d : Drawing) : List DotLine :=
  [.opening, .shapes] ++ blockOf .sink [.leaf false, .leaf true] ++
    d.ranks.flatMap (fun rank => blockOf .same (rank.map fun p => .decision p.id p.node.var)) ++
    d.arrows.map .arrow ++
    blockOf .source (d.markers.mapIdx fun i marker => .marker i marker.root) ++
    d.markers.mapIdx (fun i marker => .pointer i marker.target marker.negated) ++ [.closing]

theorem map_rank (kind : RankKind) {lines : List String} {ls : List DotLine}
    (h : lines.map String.toList = ls.map DotLine.text) :
    (DotStyle.rank kind.name lines).map String.toList = (blockOf kind ls).map DotLine.text := by
  rw [DotStyle.rank, blockOf, List.map_append, List.map_cons, h, List.map_append, List.map_cons]
  cases kind <;> rfl

theorem map_mapIdx_congr {α β γ δ : Type} {f : Nat → α → β} {f' : Nat → α → γ} {g : β → δ}
    {g' : γ → δ} (h : ∀ i a, g (f i a) = g' (f' i a)) (as : List α) :
    (as.mapIdx f).map g = (as.mapIdx f').map g' := by
  rw [List.mapIdx_eq_zipIdx_map, List.mapIdx_eq_zipIdx_map, List.map_map, List.map_map]
  exact List.map_congr_left fun ⟨a, i⟩ _ => h i a

theorem map_lines (d : Drawing) : (d.lines .standard numberLabel).map String.toList =
    d.statements.map DotLine.text := by
  have hleaves : (DotStyle.rank "sink" DotStyle.standard.leaves).map String.toList =
      (blockOf .sink [.leaf false, .leaf true]).map DotLine.text := map_rank .sink rfl
  have hranks : (d.ranks.flatMap fun rank =>
      DotStyle.rank "same" (rank.map (Placed.declaration numberLabel))).map String.toList =
      (d.ranks.flatMap fun rank =>
        blockOf .same (rank.map fun p => .decision p.id p.node.var)).map DotLine.text := by
    rw [List.map_flatMap, List.map_flatMap]
    refine List.flatMap_congr fun rank _ => map_rank .same ?_
    rw [List.map_map, List.map_map]
    exact List.map_congr_left fun p _ => text_declaration p
  have harrows : (d.arrows.map (Arrow.line .standard)).map String.toList =
      (d.arrows.map DotLine.arrow).map DotLine.text := by
    rw [List.map_map, List.map_map]
    exact List.map_congr_left fun a _ => text_arrow a
  have hmarkers : (DotStyle.rank "source"
      (d.markers.mapIdx (Marker.declaration .standard))).map String.toList =
      (blockOf .source (d.markers.mapIdx fun i marker =>
        .marker i marker.root)).map DotLine.text :=
    map_rank .source (map_mapIdx_congr text_marker d.markers)
  rw [lines, statements]
  simp only [List.map_append, hleaves, hranks, harrows, hmarkers,
    map_mapIdx_congr text_pointer d.markers]
  rfl

/-- **The lines of a drawing's text are those of its statements.** -/
theorem splitLines_render (d : Drawing) : splitLines (d.render .standard numberLabel).toList =
    d.statements.map DotLine.text := by
  have hrender : (d.render .standard numberLabel).toList =
      unlines '\n' (d.statements.map DotLine.text) := by
    rw [← map_lines, render, String.toList_join, List.flatMap_map, unlines, List.flatMap_map]
    exact List.flatMap_congr fun line _ => String.toList_append
  rw [splitLines, hrender]
  refine linesFrom_unlines (List.forall_mem_map.mpr fun line _ => ?_)
  exact unbroken_spaced line.word_words

end Drawing

end Factbase.Diagram
