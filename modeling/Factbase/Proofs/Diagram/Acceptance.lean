import Factbase.Proofs.Diagram.Graphs
import Factbase.Proofs.Diagram.Histories
import Factbase.Proofs.Text.Numerals

/-!
# Which bodies are accepted

The form of a body is said here without its reader: numerals in lines, ids of their own, variables
in range, edges that lead to leaves or back. Nothing else is asked for. A variable may be tested
twice along a path or out of order, and the children of a decision may be equal.

* `Body.StandsIn`: the numbers of a body stand in the lines of a text;
* `Body.Admitted`: such a body that is a graph over variables with a counterpart;
* `spelledBy_iff`: **the reader finds the body that stands in the lines**, so that what is admitted
  is read (`Admitted.read_eq`);
* `readBody_ok_iff`: **a text is accepted just when it holds a body that is admitted**, whose value
  the edge has; everything else is an error, and the edges of the manager keep their values.
-/

namespace Factbase.Diagram

open Text

/-! ## 1. The form of a text -/

/-- The words of the line are numerals of the four numbers. -/
def BodyLine.StandsIn (line : BodyLine) (cs : List Char) : Prop :=
  List.Forall₂ (Numeral .signed32) (words cs) [(line.id : Int), line.var, line.low, line.high]

namespace Body

/-- Blank lines apart, the first line is the numbers of decisions and of variables, then there is a
line for every decision and one for the root. What stands behind is not looked at. -/
def StandsIn (b : Body) (lines : List (Option (List Char))) : Prop :=
  ∃ header decisions root rest,
    lines.filter (fun line => !isBlankLine line) =
      some header :: (decisions.map some ++ some root :: rest) ∧
    (∃ nodes vars, words header = [nodes, vars] ∧
      Numeral .word64 nodes b.lines.length ∧ Numeral .word32 vars b.numVars) ∧
    List.Forall₂ BodyLine.StandsIn b.lines decisions ∧
    Numeral .signed32 (trim root) b.root

/-- The text holds the body, which is a graph, and the reader has all its variables. -/
structure Admitted (remap : Nat → Option Nat) (lines : List (Option (List Char))) (b : Body) :
    Prop where
  stands : b.StandsIn lines
  graph : b.Graph
  mapped : ∀ line ∈ b.lines, (remap line.var).isSome = true

/-! ## 2. Acceptance -/

/-- The words of a line are read one by one. -/
theorem standsIn_iff_spelledBy {line : BodyLine} {cs : List Char} :
    line.StandsIn cs ↔ line.SpelledBy cs := by
  constructor
  · intro h
    unfold BodyLine.StandsIn at h
    generalize hwords : words cs = fields at h
    obtain _ | ⟨hid, _ | ⟨hvar, _ | ⟨hlow, _ | ⟨hhigh, ⟨⟩⟩⟩⟩⟩ := h
    exact ⟨_, _, _, _, hwords, readInt_eq_ok_iff.mpr hid, readInt_eq_ok_iff.mpr hvar,
      readInt_eq_ok_iff.mpr hlow, readInt_eq_ok_iff.mpr hhigh⟩
  · rintro ⟨id, var, low, high, hwords, hid, hvar, hlow, hhigh⟩
    rw [BodyLine.StandsIn, hwords]
    exact .cons (readInt_eq_ok_iff.mp hid) (.cons (readInt_eq_ok_iff.mp hvar)
      (.cons (readInt_eq_ok_iff.mp hlow) (.cons (readInt_eq_ok_iff.mp hhigh) .nil)))

variable {b : Body} {lines : List (Option (List Char))} {remap : Nat → Option Nat}

/-- **The reader finds the body that stands in the lines.** -/
theorem spelledBy_iff : b.SpelledBy lines ↔ b.StandsIn lines := by
  have hlines : BodyLine.SpelledBy = BodyLine.StandsIn :=
    funext₂ fun _ _ => propext standsIn_iff_spelledBy.symm
  have hnodes {cs : List Char} {n : Nat} : readNat .word64 cs = .ok n ↔ Numeral .word64 cs n :=
    readNat_eq_ok_iff rfl
  have hvars {cs : List Char} {n : Nat} : readNat .word32 cs = .ok n ↔ Numeral .word32 cs n :=
    readNat_eq_ok_iff rfl
  simp only [SpelledBy, StandsIn, hlines, hnodes, hvars, readInt_eq_ok_iff]

/-- **What is admitted is read.** -/
theorem Admitted.read_eq (h : b.Admitted remap lines) :
    read remap lines = ⟨b.lines.map (·.step remap), .ok b.root⟩ :=
  (spelledBy_iff.mpr h.stands).read_eq h.graph h.mapped

end Body

/-! ## 3. Main result -/

namespace Manager

/-- **The bodies that are accepted.** Reading a text comes to an edge just when the text holds a
body that is admitted, and to an error otherwise. The edge has the value of the body, and all edges
that the manager has keep theirs. -/
theorem readBody_ok_iff {m : Manager} (h : m.WellFormed) {remap : Nat → Option Nat}
    (hr : ∀ v w, remap v = some w → m.order.Allocated w) (lines : List (Option (List Char))) :
    Ends (readBody remap lines) m fun result m' =>
      ((∃ g, result = .ok g) ↔ ∃ b : Body, b.Admitted remap lines) ∧
      (∀ b : Body, b.Admitted remap lines → ∃ g, result = .ok g ∧ m'.Holds g ∧
        ∀ ρ, m'.eval ρ g = b.value (Body.carried remap ρ)) ∧
      m'.WellFormed ∧ ∀ e, m.Holds e → m'.Holds e ∧ ∀ ρ, m'.eval ρ e = m.eval ρ e := by
  obtain ⟨result, m', run, n, hresult⟩ := ends_readBody_value h hr lines
  have hadmitted : ∀ b : Body, b.Admitted remap lines → ∃ g, result = .ok g ∧ m'.Holds g ∧
      ∀ ρ, m'.eval ρ g = b.value (Body.carried remap ρ) := by
    intro b hb
    have hmap : ∀ line ∈ b.lines, ∃ w, remap line.var = some w ∧ m.order.Allocated w := by
      intro line hline
      obtain ⟨w, hw⟩ := Option.isSome_iff_exists.mp (hb.mapped line hline)
      exact ⟨w, hw, hr _ _ hw⟩
    rw [readBody, hb.read_eq] at run
    exact ((ends_build h hb.graph hmap).of_ok run).2
  refine ⟨result, m', run, ⟨fun ⟨g, hg⟩ => ?_, fun ⟨b, hb⟩ => ?_⟩, hadmitted, n.1,
    fun e he => ⟨n.holds he, n.eval_eq h he⟩⟩
  · obtain ⟨error, herror⟩ | ⟨b, _, hspelled, hgraph, hmapped, _⟩ := hresult
    · rw [herror] at hg
      cases hg
    · exact ⟨b, Body.spelledBy_iff.mp hspelled, hgraph, hmapped⟩
  · obtain ⟨g, hg, _⟩ := hadmitted b hb
    exact ⟨g, hg⟩

/-- A body that compares the two variables, the reader's the other way round. It has a blank line,
signs, leading zeros and ids that are not consecutive. -/
theorem readBody_ok_iff_equal : ∃ m refs, Reached m refs ∧ m.WellFormed ∧
    let remap := fun v => if v = 1 then some 2 else if v = 2 then some 1 else none
    let lines := ["2 2", " ", "07 1 -1 +1", "3 2 7 -7", " -3 ", "behind"].map (some ·.toList)
    let b : Body := ⟨2, [⟨7, 1, -1, 1⟩, ⟨3, 2, 7, -7⟩], -3⟩
    (∀ v w, remap v = some w → m.order.Allocated w) ∧ b.Admitted remap lines ∧
    Ends (readBody remap lines) m fun result m' => ∃ g, result = .ok g ∧ m'.Holds g ∧
      ∀ ρ, m'.eval ρ g = b.value (Body.carried remap ρ) ∧ m'.eval ρ g = (ρ 1 == ρ 2) := by
  obtain ⟨m, r, hvars, _⟩ := reached_disjunction
  refine ⟨m, _, r, r.wellFormed.1, ?_⟩
  intro remap lines b
  have hremap : ∀ v w, remap v = some w → m.order.Allocated w := by
    intro v w hw
    have hsize : m.order.size = 2 := hvars
    have hw' : w = 2 ∨ w = 1 := by grind
    constructor <;> omega
  have hb : b.Admitted remap lines := by
    refine ⟨Body.spelledBy_iff.mp ?_, ⟨⟨?_, ?_, trivial⟩, ?_⟩, by decide⟩
    · refine ⟨"2 2".toList, ["07 1 -1 +1".toList, "3 2 7 -7".toList], " -3 ".toList,
        [some "behind".toList], by decide, ⟨['2'], ['2'], by decide, by decide, by decide⟩, ?_,
        by decide⟩
      exact .cons ⟨['0', '7'], ['1'], ['-', '1'], ['+', '1'], by decide⟩
        (.cons ⟨['3'], ['2'], ['7'], ['-', '7'], by decide⟩ .nil)
    · exact ⟨by decide, by decide, by decide, .inl rfl, .inl rfl⟩
    · exact ⟨by decide, by decide, by decide, .inr ⟨_, List.mem_cons_self, rfl⟩,
        .inr ⟨_, List.mem_cons_self, rfl⟩⟩
    · exact .inr ⟨⟨3, 2, 7, -7⟩, by decide, rfl⟩
  refine ⟨hremap, hb, (readBody_ok_iff r.wellFormed.1 hremap lines).mono ?_⟩
  intro result m' ⟨_, hadmitted, _⟩
  obtain ⟨g, hresult, hg, heval⟩ := hadmitted b hb
  refine ⟨g, hresult, hg, fun ρ => ⟨heval ρ, ?_⟩⟩
  rw [heval]
  show Body.walk _ [⟨3, 2, 7, -7⟩, ⟨7, 1, -1, 1⟩] (-3) = _
  have hfirst : Body.carried remap ρ 1 = ρ 2 := rfl
  have hsecond : Body.carried remap ρ 2 = ρ 1 := rfl
  cases h1 : ρ 1 <;> cases h2 : ρ 2 <;> simp [Body.walk, hfirst, hsecond, h1, h2]

end Manager

end Factbase.Diagram
