import Factbase.Proofs.Diagram.Codec
import Factbase.Proofs.Diagram.Dependence
import Factbase.Proofs.Text.Bytes
import Factbase.Proofs.Text.Numerals

/-!
# Diagrams moved between managers

A diagram that is written by one manager can be read by any other one. The reader says what the
variables stand for there, and only those that matter to the diagram need to stand for anything.
The writer's variables have 32 bits without a sign, but the reader takes them for numbers with one.

* `Body.byteLines_render`: the lines of a body in bytes;
* `WellFormed.transfer`: **what is read has the values of what was written**, and the writer itself
  reads the very edge, where all variables that matter are below `twoPow 31`;
* `WellFormed.readable_iff`: **a diagram that was written is read just there**, whoever reads it;
* `exists_unreadable`: a manager that does not read what it has written.
-/

namespace Factbase.Diagram

/-! ## 1. Bodies in bytes -/

/-- Every line of a body's text is of ASCII characters. -/
theorem Body.ascii_fields (b : Body) : ∀ line ∈ b.fields.map Text.spaced, Text.Ascii line := by
  intro line hline
  obtain ⟨fields, hfields, rfl⟩ := List.mem_map.mp hline
  refine Text.ascii_spaced fun cs hcs => ?_
  obtain ⟨i, rfl⟩ := b.numeric_fields fields hfields cs hcs
  exact Text.ascii_toString i

/-- **The lines of a body in bytes are those of its text.** -/
theorem Body.byteLines_render (b : Body) :
    Text.byteLines b.render.toUTF8 = (Text.splitLines b.render.toList).map some := by
  have hlines : ∀ line ∈ b.fields.map Text.spaced, Text.Unbroken '\n' '\r' line := by
    intro line hline
    obtain ⟨fields, hfields, rfl⟩ := List.mem_map.mp hline
    exact Text.unbroken_spaced (b.word_fields fields hfields)
  have hbytes := Text.byteLines_unlines b.ascii_fields hlines
  rwa [← b.toList_render, String.ofList_toList, ← b.splitLines_render] at hbytes

/-! ## 2. Variables of a text -/

namespace Body

variable {b : Body}

/-- A body that a body's text spells has a line for each of its lines. -/
theorem SpelledBy.forall₂_lines {b' : Body}
    (h : b'.SpelledBy ((Text.splitLines b.render.toList).map some)) :
    List.Forall₂ BodyLine.SpelledBy b'.lines (b.lines.map (Text.spaced ·.fields)) := by
  obtain ⟨header, texts, root, rest, hlines, ⟨nodes, vars, hwords, hcount, _⟩, hall, _⟩ := h
  rw [b.filter_render] at hlines
  obtain ⟨hheader, hbehind⟩ := List.cons.inj hlines
  obtain rfl := Option.some.inj hheader
  rw [Text.words_spaced (b.word_fields _ List.mem_cons_self)] at hwords
  obtain ⟨rfl, _⟩ := List.cons.inj hwords
  -- the header says how many of the lines are decisions
  have hlength : b'.lines.length = b.lines.length := (Text.of_readNat_repr hcount).1
  have htexts := List.append_inj_left hbehind (by simp [← hlength, hall.length_eq])
  rwa [(List.map_injective_iff.mpr (Option.some_injective _)) htexts]

/-- **Where a body's text is accepted, all its variables are numbers of 31 bits.** -/
theorem small_of_read {remap : Nat → Option Nat} {root : Int}
    (h : (read remap ((Text.splitLines b.render.toList).map some)).root = .ok root) :
    ∀ line ∈ b.lines, line.var < twoPow 31 := by
  obtain ⟨b', hspelled, _⟩ := exists_body_of_read h
  have hall := List.forall₂_map_right_iff.mp hspelled.forall₂_lines
  intro line hline
  obtain ⟨i, hi, rfl⟩ := List.mem_iff_getElem.mp hline
  obtain ⟨id, var, low, high, hwords, _, hvar, _⟩ := hall.get (hall.length_eq ▸ hi) hi
  rw [Text.words_spaced (BodyLine.word_fields _)] at hwords
  obtain ⟨_, hwords⟩ := List.cons.inj hwords
  obtain ⟨rfl, _⟩ := List.cons.inj hwords
  exact Nat.lt_of_le_of_lt (Text.of_readInt_repr hvar).2 (by decide)

/-- A variable that matters to the value of a body is tested by one of its lines. -/
theorem exists_line {m : Manager} {e : Edge} {v : Nat}
    (hvalue : ∀ σ, b.value σ = m.eval σ e) (hv : m.Matters e v) :
    ∃ line ∈ b.lines, line.var = v := by
  obtain ⟨ρ, hne⟩ := hv
  by_contra hnot
  refine hne ?_
  rw [← hvalue, ← hvalue]
  refine value_congr fun line hline => ?_
  have hother : line.var ≠ v := fun heq => hnot ⟨line, hline, heq⟩
  rw [Function.update_of_ne hother, Function.update_of_ne hother]

end Body

/-! ## 3. Main results -/

namespace Manager

/-- What is answered with an edge was accepted. -/
theorem exists_root_of_readBody {m m' : Manager} {remap : Nat → Option Nat}
    {lines : List (Option (List Char))} {g : Edge}
    (run : readBody remap lines m = .ok (.ok g) m') :
    ∃ root, (Body.read remap lines).root = .ok root := by
  obtain ⟨built, m₁, _, hresult⟩ := run_ok_of_bind run
  have hmap : (Body.read remap lines).root.map built.decode = .ok g :=
    (EStateM.Result.ok.inj hresult).1
  cases hroot : (Body.read remap lines).root with
  | ok root => exact ⟨root, rfl⟩
  | error error =>
      rw [hroot] at hmap
      cases hmap

/-- **Diagrams move between managers.** The body of an edge of `A` is read by `B`, where every
variable that matters to the edge stands for some variable of `B`. Nodes of `A` have numbers of 31
bits, and so have the variables that matter; all its variables have numbers of 32 bits. The edge
that `B` comes to has, for every assignment of the variables of `B`, the value of the written edge
where each variable has the value of what it stands for; `B` keeps all edges with their values. Read
by `A` with every variable standing for itself, the body gives the edge that was written. -/
theorem WellFormed.transfer {A B : Manager} (hA : A.WellFormed) (hB : B.WellFormed) {f : Edge}
    (hf : A.Holds f) (hnodes : A.Addressable) (hvars : A.numVars < twoPow 32)
    (hfields : ∀ v, A.Matters f v → v < twoPow 31) {remap : Nat → Option Nat}
    (hmap : ∀ v, A.Matters f v → ∃ w, remap v = some w ∧ B.order.Allocated w) :
    ∃ b, A.body f = .ok b ∧
      (Ends (readBody remap (Text.byteLines b.render.toUTF8)) B fun result B' =>
        ∃ g, result = .ok g ∧ B.Next B' ∧ B'.Holds g ∧
          ∀ a : Assignment, B'.eval a g = A.eval (fun v => a ((remap v).getD 0)) f) ∧
      (Ends (readBody some (Text.byteLines b.render.toUTF8)) A fun result A' =>
        result = .ok f ∧ A.Next A') := by
  have hd := dependsOn_support hA hf
  have hmatters : ∀ v ∈ A.support f, A.Matters f v := fun v => (mem_support_iff hA.toFounded hf).mp
  have hsmall : ∀ v ∈ A.support f, A.order.Allocated v → v < twoPow 31 :=
    fun v hv _ => hfields v (hmatters v hv)
  obtain ⟨b, hbody, hread⟩ := ends_readBody_body hA hf hd hnodes hvars hsmall hB
    fun v hv => hmap v (hmatters v hv)
  have hself : ∀ v ∈ A.support f, ∃ w, some v = some w ∧ A.order.Allocated w := fun v hv =>
    ⟨v, rfl, (hmatters v hv).allocated hA.toFounded hf⟩
  obtain ⟨b', hbody', hback⟩ := ends_readBody_body hA hf hd hnodes hvars hsmall hA hself
  obtain rfl : b = b' := Except.ok.inj (hbody.symm.trans hbody')
  refine ⟨b, hbody, ?_⟩
  rw [b.byteLines_render]
  refine ⟨hread.mono ?_, hback.mono ?_⟩
  · rintro result B' ⟨next, g, rfl, hg, hval⟩
    exact ⟨g, rfl, next, hg, hval⟩
  · rintro result A' ⟨next, g, rfl, hg, hval⟩
    -- edges with the same values are the same
    have hsame : ∀ ρ, A'.eval ρ g = A'.eval ρ f := fun ρ =>
      (hval ρ).trans (next.eval_eq hA hf ρ).symm
    rw [next.1.eq_of_eval_eq hg (next.holds hf) hsame]
    exact ⟨rfl, next⟩

/-- **Which diagrams can be moved.** What is written of an edge is read, by whichever manager has
variables for those that matter to it, just where all of these are numbers of 31 bits. -/
theorem WellFormed.readable_iff {A B : Manager} (hA : A.WellFormed) (hB : B.WellFormed) {f : Edge}
    (hf : A.Holds f) (hnodes : A.Addressable) (hvars : A.numVars < twoPow 32)
    {remap : Nat → Option Nat}
    (hmap : ∀ v, A.Matters f v → ∃ w, remap v = some w ∧ B.order.Allocated w) :
    ∃ b, A.body f = .ok b ∧
      ((∃ g B', readBody remap (Text.byteLines b.render.toUTF8) B = .ok (.ok g) B') ↔
        ∀ v, A.Matters f v → v < twoPow 31) := by
  obtain ⟨ids, hbody, hids, hamong⟩ := Body.exists_body hA hf (dependsOn_support hA hf)
  refine ⟨_, hbody, fun ⟨g, B', run⟩ v hv => ?_, fun hfields => ?_⟩
  · rw [Body.byteLines_render] at run
    obtain ⟨root, hroot⟩ := exists_root_of_readBody run
    obtain ⟨line, hline, rfl⟩ :=
      Body.exists_line (fun σ => hids.value_bodyOf hA hf hamong) hv
    exact Body.small_of_read hroot line hline
  · obtain ⟨b, hbody', ⟨_, B', run, g, rfl, _⟩, _⟩ :=
      hA.transfer hB hf hnodes hvars hfields hmap
    obtain rfl := Except.ok.inj (hbody'.symm.trans hbody)
    exact ⟨g, B', run⟩

/-- A manager is reached that has `twoPow 31` variables and a decision on the last one. -/
theorem reached_large : ∃ m : Manager, Reached m [⟨2⟩, .one, .zero] ∧ m.numNodes = 2 ∧
    m.numVars = twoPow 31 ∧ m.stored 2 = ⟨twoPow 31, .zero, .one⟩ := by
  have r₀ := Reached.created (show create 2 2 0.2 = .ok _ from rfl)
  have r₁ := r₀.answered (c := .extendVars (twoPow 31)) trivial
    (show _ = EStateM.Result.ok [] _ from rfl)
  have r₂ := r₁.answered (c := .mkVar (twoPow 31)) trivial
    (show _ = EStateM.Result.ok [⟨2⟩] _ from rfl)
  exact ⟨_, r₂, by decide +kernel, by decide +kernel, by decide +kernel⟩

/-- The body of a manager's only decision has one line. -/
theorem body_single {m : Manager} (h : m.WellFormed) (hx : m.Holds ⟨2⟩) (hsize : m.numNodes = 2)
    {v : Nat} (hv : m.stored 2 = ⟨v, .zero, .one⟩) :
    m.body ⟨2⟩ = .ok ⟨m.numVars, [⟨2, v, -1, 1⟩], 2⟩ := by
  obtain ⟨ids, hbody, hids, hamong⟩ := Body.exists_body h hx (dependsOn_support h hx)
  have honly : ∀ j ∈ ids.nodes, j = 2 := fun j hj => by
    obtain ⟨h2, hheld, _⟩ := hids.held j hj
    have hle := (holds_ofIndex.mp hheld).2
    omega
  obtain ⟨k, _, hget⟩ := hamong.resolve_left (by decide)
  have hnodes : ids.nodes = [2] := List.perm_singleton.mp <|
    (List.perm_ext_iff_of_nodup hids.nodup (List.nodup_singleton 2)).mpr fun j =>
      ⟨fun hj => List.mem_singleton.mpr (honly j hj),
        fun hj => List.mem_singleton.mp hj ▸ List.mem_of_getElem? hget⟩
  have hid : ids.idOf.getD 2 0 = 2 := hids.id_lineOf (k := 0) (m := m) (by rw [hnodes]; rfl)
  have hline : ids.lineOf m 2 = ⟨2, v, -1, 1⟩ := by
    rw [Body.Ids.lineOf, hid, hv]
    rfl
  have hroot : ids.encode ⟨2⟩ = 2 := congrArg (Nat.cast : Nat → Int) hid
  rw [hbody, Body.Ids.bodyOf, hnodes, List.map_singleton, hline, hroot]

/-- **A manager that does not read what it has written.** It has the variable `twoPow 31` and writes
its edge in three lines, which every manager answers with an error. -/
theorem exists_unreadable : ∃ A : Manager, Reached A [⟨2⟩, .one, .zero] ∧
    A.order.Allocated (twoPow 31) ∧ (∀ ρ, A.eval ρ ⟨2⟩ = ρ (twoPow 31)) ∧
    ∃ b, A.body ⟨2⟩ = .ok b ∧ b.render = "1 2147483648\n2 2147483648 -1 1\n2\n" ∧
      ∀ (B : Manager) (remap : Nat → Option Nat), B.WellFormed →
        (∀ v w, remap v = some w → B.order.Allocated w) →
        ∃ error B', readBody remap (Text.byteLines b.render.toUTF8) B = .ok (.error error) B' := by
  obtain ⟨A, r, hsize, hvars, hnode⟩ := reached_large
  have h := r.wellFormed.1
  have hx := r.wellFormed.2 ⟨2⟩ List.mem_cons_self
  have hbody := body_single h hx hsize hnode
  rw [hvars] at hbody
  refine ⟨A, r, ⟨by decide, hvars.ge⟩, fun ρ => ?_, _, hbody, by decide +kernel,
    fun B remap hB hmap => ?_⟩
  · have heval := h.eval_ofIndex (ρ := ρ) (show A.Holds (.ofIndex 2) from hx) (by decide)
    rw [hnode, eval_one, eval_zero] at heval
    refine heval.trans ?_
    cases ρ (twoPow 31) <;> rfl
  · rw [Body.byteLines_render]
    obtain ⟨result, B', run, _, ⟨error, rfl⟩ | ⟨b, g, _, _, _, rfl, _⟩⟩ :=
      ends_readBody_value hB hmap ((Text.splitLines
        (Body.render ⟨twoPow 31, [⟨2, twoPow 31, -1, 1⟩], 2⟩).toList).map some)
    · exact ⟨error, B', run⟩
    · obtain ⟨root, hroot⟩ := exists_root_of_readBody run
      have hlt := Body.small_of_read hroot _ List.mem_cons_self
      exact absurd hlt (by decide)

/-- Both variables of a manager may stand for the first one. -/
theorem transfer_pair : ∃ m : Manager, m.WellFormed ∧ m.Holds ⟨3⟩ ∧ ∃ b, m.body ⟨3⟩ = .ok b ∧
    (Ends (readBody (fun _ => some 1) (Text.byteLines b.render.toUTF8)) m fun result m' =>
      ∃ g, result = .ok g ∧ m.Next m' ∧ m'.Holds g ∧
        ∀ a : Assignment, m'.eval a g = m.eval (fun _ => a 1) ⟨3⟩) ∧
    (Ends (readBody some (Text.byteLines b.render.toUTF8)) m fun result m' =>
      result = .ok ⟨3⟩ ∧ m.Next m') := by
  obtain ⟨m, r, hf, hvars⟩ :
      ∃ m, Reached m [⟨3⟩, ⟨2⟩, .one, .zero] ∧ m.Holds ⟨3⟩ ∧ m.numVars = 2 := by
    have r₀ := Reached.created (show create 2 2 0.2 = .ok _ from rfl)
    have r₁ := r₀.answered (c := .extendVars 2) trivial (show _ = EStateM.Result.ok [] _ from rfl)
    have r₂ := r₁.answered (c := .mkVar 1) trivial (show _ = EStateM.Result.ok [⟨2⟩] _ from rfl)
    have r₃ := r₂.answered (c := .mkVar 2) trivial (show _ = EStateM.Result.ok [⟨3⟩] _ from rfl)
    exact ⟨_, r₃, ⟨by decide, by decide +kernel⟩, by decide +kernel⟩
  have h := r.wellFormed.1
  have hvar : m.order.Allocated 1 := ⟨by decide, by unfold numVars at hvars; omega⟩
  have hfields : ∀ v, m.Matters ⟨3⟩ v → v < twoPow 31 := fun v hv =>
    Nat.lt_of_le_of_lt (hv.allocated h.toFounded hf).2
      (show m.numVars < twoPow 31 by rw [hvars]; decide)
  exact ⟨m, h, hf, h.transfer h hf (h.addressable (hvars ▸ by decide)) (hvars ▸ by decide) hfields
    fun v _ => ⟨1, rfl, hvar⟩⟩

end Manager

end Factbase.Diagram
