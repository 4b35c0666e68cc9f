import Factbase.Proofs.Diagram.Histories
import Factbase.Proofs.Diagram.Twins

/-!
# Sizes do not show

The table of a manager and its cache have sizes, which are chosen when the manager is created. No
answer depends on them, and neither do the nodes and the order in which they are numbered.

* `Call.reply`: a call with all that it answers with;
* `Call.Proper`: the arguments of a call are edges, variables and sets of variables of the manager.
  A text may be read under any renaming, also one that the reading stops at;
* `replies`: a session, with every answer and every manager on the way;
* `Call.agrees`: **a proper call is answered alike by alike managers**;
* `replies_eq`: **two managers of any sizes answer alike, call by call, and have the same nodes
  behind every call.**
-/

namespace Factbase.Diagram.Manager

/-! ## 1. Calls and their answers -/

/-- What a call answers with. -/
inductive Reply where
  | done
  | variables (first : Nat)
  | edge (e : Edge)
  | reading (result : Except BodyError Edge)

namespace Call

/-- The program of a call, with all that it answers with. -/
def reply : Call → Op Reply
  | extendVars count => return .variables (← Manager.extendVars count)
  | setVarOrder vs => do
    Manager.setVarOrder vs
    return .done
  | mkVar v => return .edge (← Manager.mkVar v)
  | mkNode v low high => return .edge (← Manager.mkNode v low high)
  | cube literals => return .edge (← Manager.cube literals)
  | varSet words => return .edge (← Manager.varSetOfWords words)
  | ite f g h => return .edge (← Manager.ite f g h)
  | conj f g => return .edge (← Manager.conj f g)
  | disj f g => return .edge (← Manager.disj f g)
  | exclusive f g => return .edge (← Manager.exclusive f g)
  | diff f g => return .edge (← Manager.diff f g)
  | conjAll fs => return .edge (← Manager.conjAll fs)
  | project f vars => return .edge (← Manager.project f vars)
  | readBody remap lines => return .reading (← Manager.readBody remap lines)

/-- The arguments of a call belong to the manager. What the variables of a text stand for is left
open. -/
def Proper (m : Manager) : Call → Prop
  | readBody _ _ => True
  | c => c.Valid m

/-- **A proper call is answered alike by alike managers.** -/
theorem agrees {m n : Manager} (a : Alike m n) {c : Call} (hc : c.Proper m) :
    Agrees c.reply m n := by
  have edge : ∀ {act : Op Edge}, Agrees act m n → Agrees (return Reply.edge (← act)) m n :=
    fun h => h.bind fun r _ _ _ a' => agrees_pure a' _
  cases c with
  | extendVars count => exact (agrees_extendVars a count).bind fun _ _ _ _ a' => agrees_pure a' _
  | setVarOrder vs => exact (agrees_setVarOrder a vs).bind fun _ _ _ _ a' => agrees_pure a' _
  | mkVar v => exact edge (agrees_mkVar a v)
  | mkNode v low high =>
      obtain ⟨hv, hl, hh, below, below'⟩ := hc
      exact edge (agrees_mkNode a hv hl hh below below')
  | cube literals => exact edge (agrees_cube a hc)
  | varSet words => exact edge (agrees_cube a hc)
  | ite f g k => exact edge (agrees_ite a hc.1 hc.2.1 hc.2.2)
  | conj f g => exact edge (agrees_ite a hc.1 hc.2 a.left.holds_zero)
  | disj f g => exact edge (agrees_ite a hc.1 a.left.holds_one hc.2)
  | exclusive f g => exact edge (agrees_exclusive a hc.1 hc.2)
  | diff f g => exact edge (agrees_ite a hc.2 a.left.holds_zero hc.1)
  | conjAll fs => exact edge (agrees_conjAll a hc)
  | project f vars =>
      obtain ⟨hf, vs, hset⟩ := hc
      exact edge (agrees_project a hf hset)
  | readBody remap lines =>
      exact (agrees_readBody a remap lines).bind fun _ _ _ _ a' => agrees_pure a' _

end Call

/-! ## 2. Sessions -/

/-- The answers to calls, one behind another, and the managers behind them. A call that stops
leaves the manager that it has reached. -/
def replies : List Call → Manager → List (Except Fault Reply × Manager)
  | [], _ => []
  | c :: calls, m =>
    (answer c.reply m, after c.reply m) :: replies calls (after c.reply m)

/-- Every call is proper when its turn comes. -/
def ProperAll : List Call → Manager → Prop
  | [], _ => True
  | c :: calls, m => c.Proper m ∧ ProperAll calls (after c.reply m)

/-- A question for a node is answered alike, also where there is none. -/
theorem Alike.node_eq {m n : Manager} (a : Alike m n) (i : Nat) : m.node i = n.node i := by
  have cells : m.nodes.cells[i - 1]?.map Cell.value = n.nodes.cells[i - 1]?.map Cell.value := by
    have h := congrArg (·[i - 1]?) a.nodes
    simpa only [Table.values, List.getElem?_map, Array.getElem?_toList] using h
  unfold node Table.value
  by_cases h0 : i = 0
  · rw [if_pos h0, if_pos h0]
  rw [if_neg h0, if_neg h0]
  cases hm : m.nodes.cells[i - 1]? with
  | none =>
      rw [hm] at cells
      rw [Option.map_eq_none_iff.mp cells.symm]
  | some cell =>
      rw [hm] at cells
      obtain ⟨cell', hn, hvalue⟩ := Option.map_eq_some_iff.mp cells.symm
      rw [hn]
      exact congrArg _ hvalue.symm

theorem Agrees.answers {α : Type} {act : Op α} {m n : Manager} (h : Agrees act m n) :
    answer act m = answer act n ∧ Alike (after act m) (after act n) := by
  cases run : act m with
  | ok a m' =>
      obtain ⟨n', run', alike⟩ := h.of_ok run
      rw [answer, answer, after, after, run, run']
      exact ⟨rfl, alike⟩
  | error fault m' =>
      obtain ⟨n', run', alike⟩ := h.of_error run
      rw [answer, answer, after, after, run, run']
      exact ⟨rfl, alike⟩

/-- **Alike managers answer alike all through a session.** -/
theorem Alike.replies : ∀ {calls : List Call} {m n : Manager}, Alike m n → ProperAll calls m →
    List.Forall₂ (fun x y => x.1 = y.1 ∧ Alike x.2 y.2) (replies calls m) (replies calls n)
  | [], _, _, _, _ => .nil
  | c :: calls, m, n, a, ⟨hc, hcalls⟩ => by
      obtain ⟨same, a'⟩ := (Call.agrees a hc).answers
      exact .cons ⟨same, a'⟩ (a'.replies hcalls)

/-- A new manager has the leaf, and has explored all that it keeps, which is nothing. -/
theorem thorough_create {storageBits cacheBits : Nat} {minFree : Float} {m : Manager}
    (run : create storageBits cacheBits minFree = .ok m) :
    m.Thorough ∧ m.nodes.values = [Node.leaf] ∧ m.order = .empty := by
  have h := (wellFormed_create run).1
  obtain ⟨nodes, hnodes, rest⟩ := ok_of_bind run
  obtain ⟨cache, hcache, last⟩ := ok_of_bind rest
  obtain rfl := Except.ok.inj last
  refine ⟨⟨h, fun key r hk => absurd hk (Cache.not_keeps_create hcache)⟩, ?_, rfl⟩
  show (nodes.add Node.leaf).2.values = _
  rw [Table.values_add, (Table.create_chained hnodes).1]
  rfl

/-! ## 3. Main result -/

/-- **Sizes do not show.** Two managers are created, of any sizes, and are asked the same calls.
Every call is answered alike, with the same edge or the same error, and behind it both managers
have the same number of nodes and the same decision at every index. -/
theorem replies_eq {storageBits cacheBits storageBits' cacheBits' : Nat}
    {minFree minFree' : Float} {m n : Manager}
    (run : create storageBits cacheBits minFree = .ok m)
    (run' : create storageBits' cacheBits' minFree' = .ok n) {calls : List Call}
    (proper : ProperAll calls m) :
    List.Forall₂ (fun x y => x.1 = y.1 ∧ x.2.numNodes = y.2.numNodes ∧
      ∀ i, x.2.node i = y.2.node i) (replies calls m) (replies calls n) := by
  obtain ⟨t, hvalues, horder⟩ := thorough_create run
  obtain ⟨t', hvalues', horder'⟩ := thorough_create run'
  have alike : Alike m n := ⟨t, t', hvalues.trans hvalues'.symm, horder.trans horder'.symm⟩
  exact (alike.replies proper).imp fun x y ⟨same, a⟩ => ⟨same, a.numNodes_eq, a.node_eq⟩

/-- A conjunction is asked for again behind a quantification, of a manager that keeps four results
and of one that keeps a single one. -/
theorem replies_eq_session : ∃ m n, create 2 2 0.2 = .ok m ∧ create 5 0 0.5 = .ok n ∧
    List.Forall₂ (fun x y => x.1 = y.1 ∧ x.2.numNodes = y.2.numNodes ∧
      ∀ i, x.2.node i = y.2.node i)
      (replies [.extendVars 2, .mkVar 1, .mkVar 2, .conj ⟨2⟩ ⟨3⟩, .varSet [1], .project ⟨4⟩ ⟨2⟩,
        .conj ⟨2⟩ ⟨3⟩] m)
      (replies [.extendVars 2, .mkVar 1, .mkVar 2, .conj ⟨2⟩ ⟨3⟩, .varSet [1], .project ⟨4⟩ ⟨2⟩,
        .conj ⟨2⟩ ⟨3⟩] n) := by
  have run : create 2 2 0.2 = .ok _ := rfl
  have run' : create 5 0 0.5 = .ok _ := rfl
  refine ⟨_, _, run, run', replies_eq run run' ⟨trivial, trivial, trivial, ?_, ?_, ?_, ?_, trivial⟩⟩
  · exact ⟨⟨by decide, by decide +kernel⟩, by decide, by decide +kernel⟩
  · refine ⟨fun v hv => ?_, by decide⟩
    rw [List.mem_singleton.mp hv]
    exact ⟨Nat.one_ne_zero, by decide +kernel⟩
  · exact ⟨⟨by decide, by decide +kernel⟩, [1], ⟨by decide, by decide +kernel⟩, rfl, rfl,
      by decide +kernel, by decide +kernel, show highOf _ _ = .one by decide +kernel⟩
  · exact ⟨⟨by decide, by decide +kernel⟩, by decide, by decide +kernel⟩

end Factbase.Diagram.Manager
