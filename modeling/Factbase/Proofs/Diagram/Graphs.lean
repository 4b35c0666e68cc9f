import Factbase.Proofs.Diagram.Bodies
import Factbase.Proofs.Diagram.Rebuilding

/-!
# Decision graphs in text

The body of a diagram is a graph of decisions, children first. Nothing says that it is ordered or
reduced: it may test a variable twice along a path, or in any order. It has a value under every
assignment all the same, and that value is what a reader rebuilds.

* `walk`, `Body.value`: the value of an edge, walking the graph backwards;
* `Follow`: ids of their own, variables in range, edges to earlier decisions;
* `Body.SpelledBy`: what a text says, line by line;
* `exists_of_readStep`, `readStep_eq`: **a line is accepted just when it spells a decision that
  follows**, whose variable has a counterpart;
* `exists_body_of_read`, `SpelledBy.read_eq`: **so is a text, just when it spells a graph**;
* `Proper.spelledBy_render`: the text of a proper body spells it;
* `ends_rebuild`: **the edge that is rebuilt has the value of the graph**;
* `ends_readBody_spelled`, `ends_readBody_value`: both together, for a text that spells a graph and
  for any text.
-/

namespace Factbase.Diagram

open Text

/-! ## 1. Values -/

namespace Body

/-- The value of an edge in a graph whose decisions stand the latest first. -/
def walk (σ : Assignment) : List BodyLine → Int → Bool
  | [], edge => decide (0 < edge)
  | line :: earlier, edge =>
    if edge.natAbs = line.id then
      decide (edge < 0) ^^ walk σ earlier (if σ line.var then line.high else line.low)
    else
      walk σ earlier edge

/-- The value of a body. -/
def value (b : Body) (σ : Assignment) : Bool := walk σ b.lines.reverse b.root

/-- The edge leads to a leaf or to one of the decisions. -/
def Meets (done : List BodyLine) (edge : Int) : Prop :=
  edge.natAbs = 1 ∨ ∃ line ∈ done, line.id = edge.natAbs

end Body

/-- The decision has an id of its own, a variable in range, and leads back. -/
structure BodyLine.Follows (varCount : Nat) (done : List BodyLine) (line : BodyLine) : Prop where
  id : 2 ≤ line.id
  new : ∀ earlier ∈ done, earlier.id ≠ line.id
  var : line.var ≠ 0 ∧ line.var ≤ varCount
  low : Body.Meets done line.low
  high : Body.Meets done line.high

namespace Body

/-- Every decision follows the ones before it. -/
def Follow (varCount : Nat) : List BodyLine → List BodyLine → Prop
  | _, [] => True
  | done, line :: lines => line.Follows varCount done ∧ Follow varCount (done ++ [line]) lines

/-- A graph: every decision follows, and the root leads to one of them or to a leaf. -/
structure Graph (b : Body) : Prop where
  lines : Follow b.numVars [] b.lines
  root : Meets b.lines b.root

section Walking

variable {σ : Assignment}

/-- A complement has the opposite value. -/
theorem walk_natAbs {edge : Int} (h : edge ≠ 0) : ∀ lines : List BodyLine,
    walk σ lines edge = (decide (edge < 0) ^^ walk σ lines (edge.natAbs : Nat))
  | [] => by
      have hpos : decide ((0 : Int) < (edge.natAbs : Nat)) = true := decide_eq_true (by omega)
      rw [walk, walk, hpos, Bool.xor_true, ← decide_not]
      exact decide_eq_decide.mpr (by omega)
  | line :: lines => by
      have hnot : decide (((edge.natAbs : Nat) : Int) < 0) = false := decide_eq_false (by omega)
      rw [walk, walk, Int.natAbs_natCast, hnot, Bool.false_xor]
      split
      · rfl
      · exact walk_natAbs h lines

/-- Later decisions do not matter to an edge that leads elsewhere. -/
theorem walk_of_ne {line : BodyLine} {lines : List BodyLine} {edge : Int}
    (h : edge.natAbs ≠ line.id) : walk σ (line :: lines) edge = walk σ lines edge := if_neg h

theorem walk_leaf {edge : Int} (h : edge.natAbs = 1) : ∀ {lines : List BodyLine},
    (∀ line ∈ lines, 2 ≤ line.id) → walk σ lines edge = decide (0 < edge)
  | [], _ => rfl
  | line :: lines, hids => by
      obtain ⟨hid, hids⟩ := List.forall_mem_cons.mp hids
      rw [walk_of_ne (by omega)]
      exact walk_leaf h hids

/-- Only the variables of the decisions matter. -/
theorem walk_congr {σ' : Assignment} : ∀ {lines : List BodyLine} {edge : Int},
    (∀ line ∈ lines, σ line.var = σ' line.var) → walk σ lines edge = walk σ' lines edge
  | [], _, _ => rfl
  | line :: lines, edge, same => by
      obtain ⟨hline, hlines⟩ := List.forall_mem_cons.mp same
      rw [walk, walk, hline, walk_congr hlines, walk_congr hlines]

theorem value_congr {b : Body} {σ' : Assignment}
    (same : ∀ line ∈ b.lines, σ line.var = σ' line.var) : b.value σ = b.value σ' :=
  walk_congr fun line hline => same line (List.mem_reverse.mp hline)

end Walking

section Numbered

variable {varCount : Nat} {done : List BodyLine}
  (hids : ∀ (i : Nat) (line : BodyLine), done[i]? = some line → line.id = i + 2)

include hids

/-- Consecutive ids from 2 on are those of decisions. -/
theorem meets_of_leads {edge : Int} (h : Leads (done.length + 2) edge) : Meets done edge := by
  obtain ⟨h0, hlt⟩ := h
  by_cases hleaf : edge.natAbs = 1
  · exact .inl hleaf
  · have hi : edge.natAbs - 2 < done.length := by omega
    refine .inr ⟨done[edge.natAbs - 2], List.getElem_mem hi, ?_⟩
    rw [hids _ _ (List.getElem?_eq_getElem hi)]
    omega

omit hids in
theorem follow_of_proper : ∀ {todo done : List BodyLine},
    (∀ (i : Nat) (line : BodyLine), done[i]? = some line → line.id = i + 2) →
    (∀ (i : Nat) (line : BodyLine), todo[i]? = some line →
      line.Proper varCount (done.length + i + 2)) → Follow varCount done todo
  | [], _, _, _ => trivial
  | line :: todo, done, hids, hproper => by
      obtain ⟨hid, hvar, hlow, hhigh⟩ := hproper 0 line rfl
      refine ⟨⟨?_, ?_, hvar, meets_of_leads hids hlow, meets_of_leads hids hhigh⟩,
        follow_of_proper ?_ ?_⟩
      · omega
      · intro earlier hearlier hsame
        obtain ⟨i, hget⟩ := List.mem_iff_getElem?.mp hearlier
        have hlt := (List.getElem?_eq_some_iff.mp hget).1
        have := hids i earlier hget
        omega
      · intro i l hget
        rcases Nat.lt_or_ge i done.length with hi | hi
        · rw [List.getElem?_append_left hi] at hget
          exact hids i l hget
        · rw [List.getElem?_append_right hi] at hget
          cases hoffset : i - done.length with
          | zero =>
              rw [hoffset] at hget
              obtain rfl := Option.some.inj hget
              omega
          | succ k =>
              rw [hoffset] at hget
              cases hget
      · intro i l hget
        have h := hproper (i + 1) l hget
        rw [List.length_append, List.length_singleton]
        rwa [show done.length + 1 + i = done.length + (i + 1) by omega]

end Numbered

/-- What is written is a graph. -/
theorem Proper.graph {b : Body} (h : b.Proper) : b.Graph where
  lines := follow_of_proper (fun _ _ hget => by cases hget) fun i line hget => by
    rw [List.length_nil, Nat.zero_add]
    exact h.lines i line hget
  root := meets_of_leads (fun i line hget => (h.lines i line hget).id) h.root

/-! ## 2. What a text says -/

end Body

/-- The fields of a line of text are those of the decision. -/
def BodyLine.SpelledBy (line : BodyLine) (cs : List Char) : Prop :=
  ∃ id var low high, words cs = [id, var, low, high] ∧
    readInt .signed32 id = .ok (line.id : Int) ∧ readInt .signed32 var = .ok (line.var : Int) ∧
    readInt .signed32 low = .ok line.low ∧ readInt .signed32 high = .ok line.high

namespace Body

/-- The text has, blank lines apart, the counts of decisions and variables, a line for every
decision, and the root; what stands behind is not looked at. -/
def SpelledBy (b : Body) (lines : List (Option (List Char))) : Prop :=
  ∃ header decisions root rest,
    lines.filter (fun line => !isBlankLine line) =
      some header :: (decisions.map some ++ some root :: rest) ∧
    (∃ nodes vars, words header = [nodes, vars] ∧ readNat .word64 nodes = .ok b.lines.length ∧
      readNat .word32 vars = .ok b.numVars) ∧
    List.Forall₂ BodyLine.SpelledBy b.lines decisions ∧
    readInt .signed32 (trim root) = .ok b.root

/-- The known ids are those of the decisions so far. -/
def Known.Of (known : Known) (done : List BodyLine) : Prop :=
  ∀ id, known.contains id = true ↔ ∃ line ∈ done, line.id = id

theorem known_empty : Known.Of ∅ [] := fun id => by simp

theorem Known.Of.insert {known : Known} {done : List BodyLine} (h : known.Of done)
    (line : BodyLine) : Known.Of (Std.HashSet.insert known line.id) (done ++ [line]) := fun id => by
  rw [Std.HashSet.contains_insert, Bool.or_eq_true, beq_iff_eq, h id]
  constructor
  · rintro (rfl | ⟨l, hl, rfl⟩)
    · exact ⟨line, List.mem_append_right _ List.mem_cons_self, rfl⟩
    · exact ⟨l, List.mem_append_left _ hl, rfl⟩
  · rintro ⟨l, hl, rfl⟩
    rcases List.mem_append.mp hl with hl | hl
    · exact .inr ⟨l, hl, rfl⟩
    · obtain rfl := List.mem_singleton.mp hl
      exact .inl rfl

/-- With a decision that follows, no id is less than 2 still. -/
theorem ids_append {varCount : Nat} {done : List BodyLine} {line : BodyLine}
    (hids : ∀ l ∈ done, 2 ≤ l.id) (h : line.Follows varCount done) :
    ∀ l ∈ done ++ [line], 2 ≤ l.id := by
  simpa [or_imp, forall_and] using ⟨hids, h.id⟩

section Reading

variable {remap : Nat → Option Nat} {varCount : Nat} {known : Known} {done : List BodyLine}
  (hk : known.Of done) (hids : ∀ line ∈ done, 2 ≤ line.id)

theorem readField_eq_ok_iff {n : Nat} {field : List Char} {i : Int} :
    readField n field = .ok i ↔ readInt .signed32 field = .ok i := by
  unfold readField
  split
  · rename_i value hvalue
    rw [hvalue, Except.ok.injEq, Except.ok.injEq]
  · rename_i error herror
    rw [herror]
    exact iff_of_false (fun h => by cases h) fun h => by cases h

theorem lineText_eq_ok_iff {line : NumberedLine} {cs : List Char} :
    lineText line = .ok cs ↔ line.2 = some cs := by
  unfold lineText
  split
  · rename_i hsome
    rw [hsome, Option.some_inj]
    exact ⟨Except.ok.inj, congrArg _⟩
  · rename_i hnone
    rw [hnone]
    exact iff_of_false (fun h => by cases h) fun h => by cases h

theorem readHeader_eq_ok_iff {n count : Nat} {cs : List Char} :
    readHeader n cs = .ok (count, varCount) ↔
      ∃ nodes vars, words cs = [nodes, vars] ∧ readNat .word64 nodes = .ok count ∧
        readNat .word32 vars = .ok varCount := by
  constructor
  · intro h
    unfold readHeader at h
    split at h
    · rename_i nodes vars hwords
      split at h
      · rename_i hnodes hvars
        obtain ⟨rfl, rfl⟩ := Prod.mk.inj (Except.ok.inj h)
        exact ⟨nodes, vars, hwords, hnodes, hvars⟩
      · cases h
      · cases h
    · cases h
  · rintro ⟨nodes, vars, hwords, hnodes, hvars⟩
    rw [readHeader, hwords]
    dsimp only
    rw [hnodes, hvars]

include hk hids

/-- **An edge is accepted just when it leads to a leaf or back.** -/
theorem checkEdge_eq_ok_iff {n : Nat} {edge edge' : Int} :
    checkEdge known n edge = .ok edge' ↔ edge' = edge ∧ Meets done edge := by
  unfold checkEdge Meets
  split
  · rename_i hzero
    refine iff_of_false (fun h => by cases h) ?_
    rintro ⟨-, hone | ⟨line, hline, hid⟩⟩
    · omega
    · have := hids line hline
      omega
  · rename_i hone
    exact ⟨fun h => ⟨(Except.ok.inj h).symm, .inl hone⟩, fun ⟨h, _⟩ => congrArg _ h.symm⟩
  · rename_i hzero hone
    rw [← hk edge.natAbs, or_iff_right (by omega)]
    split
    · rename_i hknown
      exact ⟨fun h => ⟨(Except.ok.inj h).symm, hknown⟩, fun ⟨h, _⟩ => congrArg _ h.symm⟩
    · rename_i hnew
      exact iff_of_false (fun h => by cases h) fun h => hnew h.2

/-- **A line that is accepted spells a decision that follows**, whose variable has a counterpart. -/
theorem exists_of_readStep {n : Nat} {cs : List Char} {step : Step}
    (h : readStep remap varCount known n cs = .ok step) :
    ∃ line : BodyLine, line.SpelledBy cs ∧ line.Follows varCount done ∧
      (remap line.var).isSome = true ∧ step = line.step remap := by
  unfold readStep at h
  split at h
  · rename_i idField varField lowField highField hwords
    obtain ⟨id, hid, h⟩ := ok_of_bind h
    obtain ⟨hid2, h⟩ := ok_of_unless h
    obtain ⟨hnew, h⟩ := ok_of_unless h
    obtain ⟨v, hv, h⟩ := ok_of_bind h
    obtain ⟨hv0, h⟩ := ok_of_unless h
    obtain ⟨hvc, h⟩ := ok_of_unless h
    cases htarget : remap v.toNat with
    | none => rw [htarget] at h; cases h
    | some target =>
        rw [htarget] at h
        obtain ⟨low, hlow, h⟩ := ok_of_bind h
        obtain ⟨low', hlow', h⟩ := ok_of_bind h
        obtain ⟨high, hhigh, h⟩ := ok_of_bind h
        obtain ⟨high', hhigh', h⟩ := ok_of_bind h
        obtain rfl := Except.ok.inj h
        obtain ⟨rfl, hlowMet⟩ := (checkEdge_eq_ok_iff hk hids).mp hlow'
        obtain ⟨rfl, hhighMet⟩ := (checkEdge_eq_ok_iff hk hids).mp hhigh'
        have hidNat : (id.toNat : Int) = id := by omega
        have hvNat : (v.toNat : Int) = v := by omega
        refine ⟨⟨id.toNat, v.toNat, low', high'⟩, ⟨idField, varField, lowField, highField, hwords,
          ?_, ?_, readField_eq_ok_iff.mp hlow, readField_eq_ok_iff.mp hhigh⟩,
          ⟨?_, ?_, ?_, hlowMet, hhighMet⟩, ?_, ?_⟩
        · rw [hidNat]
          exact readField_eq_ok_iff.mp hid
        · rw [hvNat]
          exact readField_eq_ok_iff.mp hv
        · show 2 ≤ id.toNat
          omega
        · intro earlier hearlier hsame
          exact hnew ((hk _).mpr ⟨earlier, hearlier, hsame⟩)
        · show v.toNat ≠ 0 ∧ v.toNat ≤ varCount
          omega
        · rw [htarget]
          rfl
        · rw [BodyLine.step, htarget]
          rfl
  · cases h

/-- **A line that spells such a decision is accepted.** -/
theorem readStep_eq {n : Nat} {cs : List Char} {line : BodyLine} (hspelled : line.SpelledBy cs)
    (hfollows : line.Follows varCount done) (hmap : (remap line.var).isSome = true) :
    readStep remap varCount known n cs = .ok (line.step remap) := by
  obtain ⟨idField, varField, lowField, highField, hwords, hid, hv, hlow, hhigh⟩ := hspelled
  obtain ⟨hid2, hnew, hvar, hlowMet, hhighMet⟩ := hfollows
  obtain ⟨target, htarget⟩ := Option.isSome_iff_exists.mp hmap
  rw [readStep, hwords]
  refine bind_eq_ok (readField_eq_ok_iff.mpr hid) (unless_eq_ok (by omega) (unless_eq_ok ?_ ?_))
  · rw [Int.toNat_natCast, hk line.id]
    exact fun ⟨earlier, hearlier, hsame⟩ => hnew earlier hearlier hsame
  refine bind_eq_ok (readField_eq_ok_iff.mpr hv)
    (unless_eq_ok (by omega) (unless_eq_ok (by omega) ?_))
  rw [Int.toNat_natCast, htarget]
  refine bind_eq_ok (readField_eq_ok_iff.mpr hlow)
    (bind_eq_ok ((checkEdge_eq_ok_iff hk hids).mpr ⟨rfl, hlowMet⟩) ?_)
  refine bind_eq_ok (readField_eq_ok_iff.mpr hhigh)
    (bind_eq_ok ((checkEdge_eq_ok_iff hk hids).mpr ⟨rfl, hhighMet⟩) ?_)
  rw [BodyLine.step, htarget]
  rfl

omit hk hids in
/-- **The lines that are accepted spell decisions that follow, and the root.** -/
theorem exists_of_readLines {root : Int} : ∀ {count : Nat} {known : Known} {done : List BodyLine}
    {lines : List NumberedLine}, known.Of done → (∀ line ∈ done, 2 ≤ line.id) →
    (readLines remap varCount count known lines).root = .ok root →
    ∃ decisions texts rootText rest,
      lines.map Prod.snd = texts.map some ++ some rootText :: rest ∧
      decisions.length = count ∧ List.Forall₂ BodyLine.SpelledBy decisions texts ∧
      Follow varCount done decisions ∧ (∀ line ∈ decisions, (remap line.var).isSome = true) ∧
      (readLines remap varCount count known lines).steps = decisions.map (·.step remap) ∧
      readInt .signed32 (trim rootText) = .ok root ∧ Meets (done ++ decisions) root
  | 0, known, done, [], hk, hids, h => by cases h
  | 0, known, done, line :: lines, hk, hids, h => by
      obtain ⟨cs, hcs, hroot⟩ := ok_of_bind (show (lineText line >>= _) = _ from h)
      unfold readRoot at hroot
      split at hroot
      · rename_i edge hedge
        obtain ⟨rfl, hmeets⟩ := (checkEdge_eq_ok_iff hk hids).mp hroot
        refine ⟨[], [], cs, lines.map Prod.snd, ?_, rfl, .nil, trivial, ?_, rfl, hedge, ?_⟩
        · rw [List.map_cons, lineText_eq_ok_iff.mp hcs]
          rfl
        · exact fun _ h => absurd h List.not_mem_nil
        · rwa [List.append_nil]
      · cases hroot
  | count + 1, known, done, [], hk, hids, h => by cases h
  | count + 1, known, done, line :: lines, hk, hids, h => by
      rw [readLines] at h ⊢
      split at h
      · cases h
      · rename_i step hstep
        obtain ⟨cs, hcs, hread⟩ := ok_of_bind hstep
        obtain ⟨decision, hspelled, hfollows, hsome, rfl⟩ := exists_of_readStep hk hids hread
        obtain ⟨decisions, texts, rootText, rest, hlines, rfl, hall, hfollow, hmapped, hsteps,
          hroot, hmeets⟩ := exists_of_readLines (hk.insert decision) (ids_append hids hfollows) h
        refine ⟨decision :: decisions, cs :: texts, rootText, rest, ?_, rfl, .cons hspelled hall,
          ⟨hfollows, hfollow⟩, List.forall_mem_cons.mpr ⟨hsome, hmapped⟩, ?_, hroot, ?_⟩
        · rw [List.map_cons, lineText_eq_ok_iff.mp hcs, hlines]
          rfl
        · exact congrArg _ hsteps
        · rwa [List.append_assoc] at hmeets

omit hk hids in
/-- **Lines that spell decisions that follow, and the root, are read as what they spell.** -/
theorem readLines_eq {root : Int} {rootText : List Char} {rest : List (Option (List Char))} :
    ∀ {decisions : List BodyLine} {texts : List (List Char)} {known : Known}
    {done : List BodyLine} {lines : List NumberedLine}, known.Of done →
    (∀ line ∈ done, 2 ≤ line.id) → lines.map Prod.snd = texts.map some ++ some rootText :: rest →
    List.Forall₂ BodyLine.SpelledBy decisions texts → Follow varCount done decisions →
    (∀ line ∈ decisions, (remap line.var).isSome = true) →
    readInt .signed32 (trim rootText) = .ok root → Meets (done ++ decisions) root →
    readLines remap varCount decisions.length known lines =
      ⟨decisions.map (·.step remap), .ok root⟩
  | _, _, _, _, [], _, _, hlines, _, _, _, _, _ => by simp at hlines
  | [], _, known, done, line :: lines, hk, hids, hlines, .nil, _, _, hroot, hmeets => by
      obtain ⟨hline, _⟩ := List.cons.inj hlines
      rw [List.append_nil] at hmeets
      have hread : readRoot known line.1 rootText = .ok root := by
        rw [readRoot, hroot]
        exact (checkEdge_eq_ok_iff hk hids).mpr ⟨rfl, hmeets⟩
      rw [List.length_nil, readLines, lineText_eq_ok_iff.mpr hline]
      exact congrArg _ hread
  | decision :: decisions, cs :: texts, known, done, line :: lines, hk, hids, hlines,
    .cons hspelled hall, hfollow, hmap, hroot, hmeets => by
      obtain ⟨hline, hlines⟩ := List.cons.inj hlines
      obtain ⟨hfollows, hfollow⟩ := hfollow
      obtain ⟨hsome, hmap⟩ := List.forall_mem_cons.mp hmap
      have hread := readStep_eq (n := line.1) hk hids hspelled hfollows hsome
      have hrest := readLines_eq (hk.insert decision) (ids_append hids hfollows) hlines hall hfollow
        hmap hroot (by rwa [List.append_assoc])
      rw [List.length_cons, readLines, bind_eq_ok (lineText_eq_ok_iff.mpr hline) hread]
      dsimp only
      rw [show (decision.step remap).id = decision.id from rfl, hrest]
      rfl

omit hk hids in
/-- **A text that is accepted spells a graph**, all of whose variables have a counterpart. -/
theorem exists_body_of_read {lines : List (Option (List Char))} {root : Int}
    (h : (read remap lines).root = .ok root) :
    ∃ b : Body, b.SpelledBy lines ∧ b.Graph ∧ (∀ line ∈ b.lines, (remap line.var).isSome = true) ∧
      read remap lines = ⟨b.lines.map (·.step remap), .ok b.root⟩ := by
  have hlines := map_numbered lines
  unfold read at h ⊢
  cases hnumbered : numbered lines with
  | nil => rw [hnumbered] at h; cases h
  | cons line rest =>
      rw [hnumbered] at h hlines
      dsimp only at h ⊢
      cases hheader : (do readHeader line.1 (← lineText line)) with
      | error error => rw [hheader] at h; cases h
      | ok counts =>
          obtain ⟨count, varCount⟩ := counts
          rw [hheader] at h
          obtain ⟨cs, hcs, hcounts⟩ := ok_of_bind hheader
          obtain ⟨decisions, texts, rootText, behind, hrest, rfl, hall, hfollow, hmapped, hsteps,
            hroot, hmeets⟩ := exists_of_readLines known_empty (by simp) h
          refine ⟨⟨varCount, decisions, root⟩, ⟨cs, texts, rootText, behind, ?_,
            readHeader_eq_ok_iff.mp hcounts, hall, hroot⟩, ⟨hfollow, hmeets⟩, hmapped, ?_⟩
          · rw [← hlines, List.map_cons, lineText_eq_ok_iff.mp hcs, hrest]
          · dsimp only at h hsteps ⊢
            rw [← hsteps, ← h]

omit hk hids in
/-- **A text that spells a graph is read as that graph**, if all variables have a counterpart. -/
theorem SpelledBy.read_eq {b : Body} {lines : List (Option (List Char))} (h : b.SpelledBy lines)
    (hgraph : b.Graph) (hmap : ∀ line ∈ b.lines, (remap line.var).isSome = true) :
    read remap lines = ⟨b.lines.map (·.step remap), .ok b.root⟩ := by
  obtain ⟨header, texts, rootText, behind, hlines, hcounts, hall, hroot⟩ := h
  rw [← map_numbered] at hlines
  unfold read
  cases hnumbered : numbered lines with
  | nil => rw [hnumbered] at hlines; cases hlines
  | cons line rest =>
      rw [hnumbered] at hlines
      obtain ⟨hline, hrest⟩ := List.cons.inj hlines
      dsimp only
      rw [bind_eq_ok (lineText_eq_ok_iff.mpr hline) (readHeader_eq_ok_iff.mpr hcounts)]
      exact readLines_eq known_empty (by simp) hrest hall hgraph.lines hmap hroot hgraph.root

end Reading

section Rendered

/-- A whole number of 32 bits is read from its text. -/
theorem readInt_toString_of_lt {i : Int} (h : i.natAbs < twoPow 31) :
    readInt .signed32 (toString i).toList = .ok i := by
  have hmost : NumeralRange.signed32.most = twoPow 31 - 1 := rfl
  have hleast : NumeralRange.signed32.least = some (twoPow 31) := rfl
  refine readInt_toString hleast ?_ ?_
  all_goals
    generalize twoPow 31 = bound at h hmost
    omega

/-- **The line of a decision spells it.** -/
theorem spelledBy_fields {varCount next : Nat} {line : BodyLine} (h : line.Proper varCount next)
    (hmost : next < twoPow 31) (hvar : line.var < twoPow 31) :
    line.SpelledBy (spaced line.fields) := by
  have hid : line.id ≤ NumeralRange.signed32.most := Nat.le_sub_one_of_lt (h.id ▸ hmost)
  have hv : line.var ≤ NumeralRange.signed32.most := Nat.le_sub_one_of_lt hvar
  exact ⟨_, _, _, _, words_spaced line.word_fields, readInt_repr hid, readInt_repr hv,
    readInt_toString_of_lt (Nat.lt_trans h.low.2 hmost),
    readInt_toString_of_lt (Nat.lt_trans h.high.2 hmost)⟩

/-- The lines of a body's text all say something. -/
theorem filter_render (b : Body) :
    ((splitLines b.render.toList).map some).filter (fun line => !isBlankLine line) =
      some (spaced [(toString b.lines.length).toList, (toString b.numVars).toList]) ::
        ((b.lines.map (spaced ·.fields)).map some ++ [some (toString b.root).toList]) := by
  have hsaid : ∀ line ∈ (b.fields.map spaced).map some, (!isBlankLine line) = true := by
    intro line hline
    simp only [List.map_map, List.mem_map, Function.comp_apply] at hline
    obtain ⟨fields, hfields, rfl⟩ := hline
    rw [isBlankLine_spaced (fun hnil => ?_) (b.word_fields fields hfields), Bool.not_false]
    rw [hnil] at hfields
    simp [Body.fields, BodyLine.fields] at hfields
  rw [b.splitLines_render, List.filter_eq_self.mpr hsaid]
  simp only [Body.fields, List.map_cons, List.map_append, List.map_map, List.map_nil, spaced,
    List.intercalate_singleton, Function.comp_def]

/-- **The text of a proper body spells it.** -/
theorem Proper.spelledBy_render {b : Body} (h : b.Proper) :
    b.SpelledBy ((splitLines b.render.toList).map some) := by
  refine ⟨_, _, _, [], b.filter_render, ?_, ?_, ?_⟩
  · refine ⟨_, _, words_spaced (b.word_fields _ List.mem_cons_self), ?_, ?_⟩
    · exact readNat_repr (Nat.le_trans (Nat.le_trans (Nat.le_add_right _ 2) h.count) (by decide))
    · exact readNat_repr (Nat.le_sub_one_of_lt h.numVars)
  · rw [List.forall₂_map_right_iff, List.forall₂_same]
    intro line hline
    obtain ⟨i, hget⟩ := List.mem_iff_getElem?.mp hline
    have hlt := (List.getElem?_eq_some_iff.mp hget).1
    exact spelledBy_fields (h.lines i line hget) (by have := h.count; omega) (h.vars line hline)
  · rw [trim_of_word (word_toString b.root)]
    exact readInt_toString_of_lt (Nat.lt_of_lt_of_le h.root.2 h.count)

end Rendered

/-! ## 3. What is rebuilt -/

/-- What an assignment of the reader's variables says of the writer's. -/
def carried (remap : Nat → Option Nat) (ρ : Assignment) : Assignment := fun v =>
  ρ ((remap v).getD 0)

/-- The reader has an edge for every decision, with its value. -/
structure Rebuilt (done : List BodyLine) (remap : Nat → Option Nat) (built : Built) (m : Manager) :
    Prop where
  ids : ∀ line ∈ done, 2 ≤ line.id
  edges : ∀ line ∈ done, ∃ g, built[line.id]? = some g ∧ m.Holds g ∧
    ∀ ρ, m.eval ρ g = walk (carried remap ρ) done.reverse line.id

theorem rebuilt_empty {remap : Nat → Option Nat} {m : Manager} : Rebuilt [] remap ∅ m where
  ids _ h := absurd h List.not_mem_nil
  edges _ h := absurd h List.not_mem_nil

section Rebuilding

variable {done : List BodyLine} {remap : Nat → Option Nat} {built : Built} {m : Manager}
  (hb : Rebuilt done remap built m) {line : BodyLine}

include hb

theorem Rebuilt.next {m' : Manager} (h : m.WellFormed) (n : m.Next m') :
    Rebuilt done remap built m' where
  ids := hb.ids
  edges line hline := by
    obtain ⟨g, hg, hheld, heval⟩ := hb.edges line hline
    exact ⟨g, hg, n.holds hheld, fun ρ => by rw [n.eval_eq h hheld, heval]⟩

/-- **A signed id is decoded to an edge with its value.** -/
theorem Rebuilt.decode (h : m.Founded) {edge : Int} (hmeets : Meets done edge) :
    m.Holds (built.decode edge) ∧
      ∀ ρ, m.eval ρ (built.decode edge) = walk (carried remap ρ) done.reverse edge := by
  have hids : ∀ line ∈ done.reverse, 2 ≤ line.id := fun line hline =>
    hb.ids line (List.mem_reverse.mp hline)
  rcases hmeets with hleaf | ⟨line, hline, hid⟩
  · have hdecode : built.decode edge = Edge.one.complementIf (decide (edge < 0)) := by
      rw [Built.decode, if_pos hleaf]
    rw [hdecode]
    refine ⟨Manager.holds_complementIf.mpr h.holds_one, fun ρ => ?_⟩
    rw [h.eval_complementIf h.holds_one, Manager.eval_one, walk_leaf hleaf hids, Bool.xor_true,
      ← decide_not]
    exact decide_eq_decide.mpr (by omega)
  · obtain ⟨g, hg, hheld, heval⟩ := hb.edges line hline
    have hid2 := hb.ids line hline
    have hdecode : built.decode edge = g.complementIf (decide (edge < 0)) := by
      rw [Built.decode, if_neg (by omega), Std.HashMap.getD_eq_getD_getElem?, ← hid, hg]
      rfl
    rw [hdecode]
    refine ⟨Manager.holds_complementIf.mpr hheld, fun ρ => ?_⟩
    rw [h.eval_complementIf hheld, heval, hid, ← walk_natAbs (by omega)]

/-- One more decision. -/
theorem Rebuilt.insert {varCount : Nat} (hline : line.Follows varCount done) {g : Edge}
    (hg : m.Holds g) (heval : ∀ ρ, m.eval ρ g = walk (carried remap ρ) done.reverse
      (if carried remap ρ line.var then line.high else line.low)) :
    Rebuilt (done ++ [line]) remap (Std.HashMap.insert built line.id g) m := by
  constructor
  · intro l hl
    rcases List.mem_append.mp hl with hl | hl
    · exact hb.ids l hl
    · obtain rfl := List.mem_singleton.mp hl
      exact hline.id
  · intro l hl
    rw [Std.HashMap.getElem?_insert, List.reverse_append, List.reverse_singleton,
      List.singleton_append]
    rcases List.mem_append.mp hl with hl | hl
    · obtain ⟨g', hg', hheld, hval⟩ := hb.edges l hl
      have hne : l.id ≠ line.id := hline.new l hl
      rw [if_neg (by rw [beq_iff_eq]; exact hne.symm)]
      refine ⟨g', hg', hheld, fun ρ => ?_⟩
      rw [hval, walk_of_ne (by rwa [Int.natAbs_natCast])]
    · obtain rfl := List.mem_singleton.mp hl
      rw [if_pos (beq_self_eq_true _)]
      refine ⟨g, rfl, hg, fun ρ => ?_⟩
      rw [heval, walk, Int.natAbs_natCast, if_pos rfl, decide_eq_false (by omega), Bool.false_xor]

/-- **A decision is rebuilt to an edge with its value.** -/
theorem Rebuilt.ends_buildStep (h : m.WellFormed) {varCount : Nat}
    (hline : line.Follows varCount done)
    (hmap : ∃ w, remap line.var = some w ∧ m.order.Allocated w) :
    Ends (Manager.buildStep built (line.step remap)) m fun built' m' =>
      m.Next m' ∧ Rebuilt (done ++ [line]) remap built' m' := by
  obtain ⟨w, hw, hwm⟩ := hmap
  obtain ⟨hlow, hlowVal⟩ := hb.decode h.toFounded hline.low
  obtain ⟨hhigh, hhighVal⟩ := hb.decode h.toFounded hline.high
  have hstep : line.step remap = ⟨line.id, w, line.low, line.high⟩ := by
    rw [BodyLine.step, hw]
    rfl
  rw [hstep]
  unfold Manager.buildStep
  refine Ends.bind (Manager.makes_mkVar h hwm) fun x m₁ hmade => ?_
  obtain ⟨n₁, hx, hxval⟩ := hmade
  refine Ends.bind (Manager.makes_ite n₁.1 hx (n₁.holds hhigh) (n₁.holds hlow)) fun g m₂ hmade => ?_
  obtain ⟨n₂, hg, hgval⟩ := hmade
  have n := n₁.trans n₂
  refine ends_pure ⟨n, (hb.next h n).insert hline hg fun ρ => ?_⟩
  have hvar : carried remap ρ line.var = ρ w := by
    rw [carried, hw]
    rfl
  simp only [hgval, hxval, n₁.eval_eq h hhigh, n₁.eval_eq h hlow, hhighVal, hlowVal, hvar]
  split <;> rfl

end Rebuilding

/-- **The decisions of a graph are rebuilt one by one.** -/
theorem ends_rebuild {varCount : Nat} {remap : Nat → Option Nat} : ∀ {todo done : List BodyLine}
    {built : Built} {m : Manager}, m.WellFormed → Rebuilt done remap built m →
    Follow varCount done todo →
    (∀ line ∈ todo, ∃ w, remap line.var = some w ∧ m.order.Allocated w) →
    Ends ((todo.map (·.step remap)).foldlM Manager.buildStep built) m fun built' m' =>
      m.Next m' ∧ Rebuilt (done ++ todo) remap built' m'
  | [], done, built, m, h, hb, _, _ => ends_pure ⟨.refl h, by rwa [List.append_nil]⟩
  | line :: todo, done, built, m, h, hb, hfollow, hmap => by
      obtain ⟨hline, hrest⟩ := hfollow
      obtain ⟨hvar, hvars⟩ := List.forall_mem_cons.mp hmap
      rw [List.map_cons, List.foldlM_cons]
      refine (hb.ends_buildStep h hline hvar).bind fun built₁ m₁ ⟨n, hb₁⟩ => ?_
      have hvars₁ : ∀ line ∈ todo, ∃ w, remap line.var = some w ∧ m₁.order.Allocated w := by
        rwa [n.2.order]
      refine (ends_rebuild n.1 hb₁ hrest hvars₁).mono fun built₂ m₂ ⟨n₂, hb₂⟩ => ⟨n.trans n₂, ?_⟩
      rwa [List.append_assoc] at hb₂

end Body

/-! ## 4. Main result -/

namespace Manager

section Texts

variable {m : Manager} (h : m.WellFormed) {remap : Nat → Option Nat}

include h

/-- **What is rebuilt has the value of the graph.** -/
theorem ends_build {b : Body} (hgraph : b.Graph)
    (hmap : ∀ line ∈ b.lines, ∃ w, remap line.var = some w ∧ m.order.Allocated w) :
    Ends (build ⟨b.lines.map (·.step remap), .ok b.root⟩) m fun result m' => m.Next m' ∧
      ∃ g, result = .ok g ∧ m'.Holds g ∧ ∀ ρ, m'.eval ρ g = b.value (Body.carried remap ρ) := by
  unfold build
  refine (Body.ends_rebuild h Body.rebuilt_empty hgraph.lines hmap).bind fun built m' ⟨n, hb⟩ => ?_
  obtain ⟨hheld, heval⟩ := hb.decode n.1.toFounded hgraph.root
  exact ends_pure ⟨n, _, rfl, hheld, heval⟩

/-- **A graph is rebuilt from a text that spells it.** -/
theorem ends_readBody_spelled {b : Body} {lines : List (Option (List Char))}
    (hspelled : b.SpelledBy lines) (hgraph : b.Graph)
    (hmap : ∀ line ∈ b.lines, ∃ w, remap line.var = some w ∧ m.order.Allocated w) :
    Ends (readBody remap lines) m fun result m' => m.Next m' ∧
      ∃ g, result = .ok g ∧ m'.Holds g ∧ ∀ ρ, m'.eval ρ g = b.value (Body.carried remap ρ) := by
  have hremap : ∀ line ∈ b.lines, (remap line.var).isSome = true := fun line hline => by
    obtain ⟨w, hw, _⟩ := hmap line hline
    exact Option.isSome_of_eq_some hw
  unfold readBody
  rw [hspelled.read_eq hgraph hremap]
  exact ends_build h hgraph hmap

/-- **Reading any text comes to an error, or to an edge with the value of the graph that the text
spells.** -/
theorem ends_readBody_value (hr : ∀ v w, remap v = some w → m.order.Allocated w)
    (lines : List (Option (List Char))) :
    Ends (readBody remap lines) m fun result m' => m.Next m' ∧ ((∃ error, result = .error error) ∨
      ∃ (b : Body) (g : Edge), b.SpelledBy lines ∧ b.Graph ∧
        (∀ line ∈ b.lines, (remap line.var).isSome = true) ∧
        result = .ok g ∧ m'.Holds g ∧ ∀ ρ, m'.eval ρ g = b.value (Body.carried remap ρ)) := by
  cases hroot : (Body.read remap lines).root with
  | error error =>
      unfold readBody build
      refine (ends_buildSteps h (allocated_of_read hr lines)).bind fun built m' ⟨n, _⟩ =>
        ends_pure ⟨n, .inl ⟨error, ?_⟩⟩
      rw [hroot]
      rfl
  | ok root =>
      obtain ⟨b, hspelled, hgraph, hmapped, hread⟩ := Body.exists_body_of_read hroot
      have hmap : ∀ line ∈ b.lines, ∃ w, remap line.var = some w ∧ m.order.Allocated w := by
        intro line hline
        obtain ⟨w, hw⟩ := Option.isSome_iff_exists.mp (hmapped line hline)
        exact ⟨w, hw, hr _ _ hw⟩
      unfold readBody
      rw [hread]
      exact (ends_build h hgraph hmap).mono fun result m' ⟨n, g, hresult, hg, hval⟩ =>
        ⟨n, .inr ⟨b, g, hspelled, hgraph, hmapped, hresult, hg, hval⟩⟩

end Texts

end Manager

end Factbase.Diagram
