import Factbase.Proofs.Diagram.Building
import Factbase.Proofs.Diagram.Cursors
import Factbase.Proofs.Diagram.Walking

/-!
# Cursors at rest

Between two calls a cursor keeps edges and half a path, but no manager, and the manager may grow
meanwhile.

* `Same x y post`: two questions have the same outcome, and an answer has a property;
* `PathWalk.Held`, `Cursor.Held`: the edges that are kept are stored;
* `PathWalk.same_next`, `Cursor.same_next`: **what comes next does not depend on how far the manager
  has grown**, and the edges that are kept then are stored, too;
* `Cursor.Held.lists`: **so a cursor lists in a manager that has grown what it listed before.**
-/

namespace Factbase.Diagram

/-! ## 1. Questions with the same outcome -/

/-- Two questions have the same outcome, and an answer has a property. -/
def Same {ε α : Type} (x y : Except ε α) (post : α → Prop) : Prop := x = y ∧ ∀ a, x = .ok a → post a

section Same

variable {ε α β : Type} {x y : Except ε α} {post : α → Prop}

theorem same_ok {a : α} (h : post a) : Same (.ok a : Except ε α) (.ok a) post :=
  ⟨rfl, fun _ heq => Except.ok.inj heq ▸ h⟩

theorem same_of_eq (h : x = y) : Same x y fun _ => True := ⟨h, fun _ _ => trivial⟩

theorem same_error (e : ε) : Same (.error e) (.error e) post := ⟨rfl, fun _ heq => by cases heq⟩

/-- One question behind another. -/
theorem Same.bind {f g : α → Except ε β} {p : β → Prop} (h : Same x y post)
    (hnext : ∀ a, post a → Same (f a) (g a) p) : Same (x >>= f) (y >>= g) p := by
  obtain ⟨rfl, h⟩ := h
  cases x with
  | ok a => exact hnext a (h a rfl)
  | error e => exact same_error e

theorem Same.ite {c : Prop} [Decidable c] {x' y' : Except ε α} (h : c → Same x y post)
    (h' : ¬ c → Same x' y' post) : Same (if c then x else x') (if c then y else y') post := by
  by_cases hc : c
  · rw [if_pos hc, if_pos hc]
    exact h hc
  · rw [if_neg hc, if_neg hc]
    exact h' hc

end Same

/-! ## 2. Walks -/

namespace PathWalk

open Manager

/-- The edges that the walk keeps are stored. -/
structure Held (m : Manager) (w : PathWalk) : Prop where
  root : m.Holds w.root
  pending : ∀ e ∈ w.pendingHigh, m.Holds e ∧ e.isTerminal = false
  active : ∀ e ∈ w.inHigh, m.Holds e

section Walks

variable {m m' : Manager} (h : m.WellFormed) (n : m.Next m')

include h n

theorem same_levelIn (w : PathWalk) {e : Edge} (he : m.Holds e) :
    Same (w.levelIn m e) (w.levelIn m' e) fun _ => True := by
  refine same_of_eq ?_
  unfold levelIn
  rw [h.level?_eq he, n.1.level?_eq (n.holds he), n.2.rank_eq he]

theorem same_low {e : Edge} (he : m.Holds e) (hnode : e.isTerminal = false) :
    Same (m.low e) (m'.low e) m.Holds := by
  rw [h.low_eq he hnode, n.1.low_eq (n.holds he) hnode, n.2.nodes.lowOf_eq he]
  exact same_ok (h.holds_lowOf he hnode)

theorem same_high {e : Edge} (he : m.Holds e) (hnode : e.isTerminal = false) :
    Same (m.high e) (m'.high e) m.Holds := by
  rw [h.high_eq he hnode, n.1.high_eq (n.holds he) hnode, n.2.nodes.highOf_eq he]
  exact same_ok (h.holds_highOf he hnode)

variable {w : PathWalk} (hw : w.Held m)

include hw

theorem same_skipTo (first : Nat) {e : Edge} (he : m.Holds e) :
    Same (w.skipTo m first e) (w.skipTo m' first e) (Held m) := by
  unfold skipTo
  refine (same_levelIn h n w he).bind fun stop _ => ?_
  exact .ite (fun _ => same_error _) fun _ => same_ok ⟨hw.root, hw.pending, hw.active⟩

omit h n in
theorem same_setBit (level : Nat) (bit : Bit) :
    Same (w.setBit level bit) (w.setBit level bit) (Held m) := by
  unfold setBit
  exact .ite (fun _ => same_ok ⟨hw.root, hw.pending, hw.active⟩) fun _ => same_error _

theorem same_goLow {e low : Edge} (he : m.Holds e) (hnode : e.isTerminal = false)
    (hlow : m.Holds low) (level : Nat) :
    Same (w.goLow m e low level) (w.goLow m' e low level) (Held m) := by
  unfold goLow
  refine (same_setBit hw level .zero).bind fun w hw => same_skipTo h n ?_ _ hlow
  exact ⟨hw.root, List.forall_mem_cons.mpr ⟨⟨he, hnode⟩, hw.pending⟩, hw.active⟩

theorem same_goHigh {e high : Edge} (he : m.Holds e) (hhigh : m.Holds high) (level : Nat) :
    Same (w.goHigh m e high level) (w.goHigh m' e high level) (Held m) := by
  unfold goHigh
  refine (same_setBit hw level .one).bind fun w hw => same_skipTo h n ?_ _ hhigh
  exact ⟨hw.root, hw.pending, List.forall_mem_cons.mpr ⟨he, hw.active⟩⟩

omit hw in
theorem same_descend (steps : Nat) {w : PathWalk} (hw : w.Held m) {e : Edge} (he : m.Holds e) :
    Same (w.descend m steps e) (w.descend m' steps e) (Held m) := by
  induction steps generalizing w e with
  | zero => exact same_error _
  | succ steps ih =>
      rw [descend, descend]
      refine .ite (fun _ => .ite (fun _ => same_ok hw) fun _ => same_error _) fun hnode => ?_
      have hnode : e.isTerminal = false := Bool.eq_false_iff.mpr hnode
      refine (same_levelIn h n w he).bind fun level _ => ?_
      refine (same_low h n he hnode).bind fun low hlow => .ite (fun _ => ?_) fun _ => ?_
      · exact (same_goLow h n hw he hnode hlow level).bind fun w hw => ih hw hlow
      · refine (same_high h n he hnode).bind fun high hhigh => ?_
        exact (same_goHigh h n hw he hhigh level).bind fun w hw => ih hw hhigh

omit hw in
theorem same_dropBelow (w : PathWalk) (level : Nat) : ∀ {stack : List Edge},
    (∀ e ∈ stack, m.Holds e) → Same (w.dropBelow m level stack) (w.dropBelow m' level stack)
      fun stack' => ∀ e ∈ stack', m.Holds e
  | [], hstack => same_ok hstack
  | e :: stack, hstack => by
      rw [dropBelow, dropBelow]
      refine (same_levelIn h n w (hstack e List.mem_cons_self)).bind fun _ _ => ?_
      exact .ite (fun _ => same_ok hstack) fun _ =>
        same_dropBelow w level fun e he => hstack e (List.mem_cons_of_mem _ he)

omit hw in
theorem same_backtrack (pending : List Edge) {w : PathWalk} (hw : w.Held m)
    (hpending : ∀ e ∈ pending, m.Holds e ∧ e.isTerminal = false) :
    Same (backtrack m pending w) (backtrack m' pending w) fun found =>
      found.1.Held m ∧ ∀ e, found.2 = some e → m.Holds e := by
  induction pending generalizing w with
  | nil => exact same_ok ⟨⟨hw.root, hpending, fun _ he => absurd he List.not_mem_nil⟩,
      fun _ he => by cases he⟩
  | cons e pending ih =>
      obtain ⟨⟨he, hnode⟩, hpending⟩ := List.forall_mem_cons.mp hpending
      rw [backtrack, backtrack]
      refine (same_levelIn h n w he).bind fun level _ => ?_
      refine (same_dropBelow h n w level hw.active).bind fun active hactive => ?_
      have hdropped : Held m { w with pendingHigh := pending, inHigh := active } :=
        ⟨hw.root, hpending, hactive⟩
      refine (same_high h n he hnode).bind fun high hhigh => .ite (fun _ => ?_) fun _ => ?_
      · exact ih hdropped hpending
      · refine (same_goHigh h n hdropped he hhigh level).bind fun w hw => same_ok ⟨hw, ?_⟩
        rintro _ ⟨rfl⟩
        exact hhigh

/-- **The next path does not depend on how far the manager has grown.** -/
theorem same_next : Same (w.next m) (w.next m') fun found => found.2.Held m := by
  unfold next
  refine .ite (fun _ => ?_) fun _ => ?_
  · refine (same_backtrack h n _ hw hw.pending).bind fun found ⟨hback, hfound⟩ => ?_
    obtain ⟨w, none | e⟩ := found
    · exact same_ok hback
    · exact (same_descend h n _ hback (hfound e rfl)).bind fun w hw => same_ok hw
  · have hstarted : Held m { w with started := true } := ⟨hw.root, hw.pending, hw.active⟩
    refine .ite (fun _ => same_ok hstarted) fun _ => ?_
    refine (same_skipTo h n hstarted 0 hw.root).bind fun w' hw' => ?_
    exact (same_descend h n _ hw' hw.root).bind fun w hw => same_ok hw

end Walks

end PathWalk

/-! ## 3. Cursors -/

namespace Cursor

/-- The edges that the cursor keeps are stored. -/
def Held (m : Manager) (c : Cursor) : Prop := c.walk.Held m

theorem held_start {m : Manager} {f : Edge} (hf : m.Holds f) (slots : List (List Nat))
    (care : List Nat) : Held m (.start m f slots care) :=
  ⟨hf, fun _ he => absurd he List.not_mem_nil, fun _ he => absurd he List.not_mem_nil⟩

theorem Held.grown {m m' : Manager} (n : m.Next m') {c : Cursor} (hc : c.Held m) : c.Held m' :=
  ⟨n.holds hc.root, fun e he => (hc.pending e he).imp_left n.holds, fun e he =>
    n.holds (hc.active e he)⟩

variable {m m' : Manager} (h : m.WellFormed) (n : m.Next m') {c : Cursor}

include h n

theorem same_load (hc : c.Held m) : Same (c.load m) (c.load m') fun found => found.2.Held m := by
  unfold load
  refine (PathWalk.same_next h n hc).bind fun found hwalk => ?_
  obtain ⟨none | profile, walk⟩ := found
  · exact same_ok hwalk
  · exact (same_of_eq rfl).bind fun _ _ => same_ok hwalk

omit h n in
theorem same_emit (hc : c.Held m) : Same c.emit c.emit fun emitted => emitted.2.Held m := by
  unfold emit
  exact (same_of_eq rfl).bind fun _ _ => same_ok hc

/-- **The next tuple does not depend on how far the manager has grown.** -/
theorem same_next (hc : c.Held m) : Same (c.next m) (c.next m') fun found => found.2.Held m := by
  unfold next
  refine .ite (fun _ => ?_) fun _ => (same_load h n hc).bind fun found hfound => ?_
  · exact (same_emit hc).bind fun _ hemitted => same_ok hemitted
  · obtain ⟨found, c⟩ := found
    exact .ite (fun _ => (same_emit hfound).bind fun _ hemitted => same_ok hemitted) fun _ =>
      same_ok hfound

/-- **A cursor lists in a manager that has grown what it listed before.** -/
theorem Held.lists (hc : c.Held m) {ts : List Tuple} (hlists : Lists (next m) ts c) :
    Lists (next m') ts c := by
  induction ts generalizing c with
  | nil =>
      obtain ⟨c', run, run'⟩ := hlists
      have hstep := same_next h n hc
      exact ⟨c', hstep.1 ▸ run, (same_next h n (hstep.2 _ run)).1 ▸ run'⟩
  | cons t ts ih =>
      obtain ⟨c', run, hrest⟩ := hlists
      have hstep := same_next h n hc
      exact ⟨c', hstep.1 ▸ run, ih (hstep.2 _ run) hrest⟩

end Cursor

end Factbase.Diagram
