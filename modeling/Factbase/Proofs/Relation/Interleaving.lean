import Factbase.Proofs.Relation.Sources

/-!
# Cursors among other work

Cursors of an open relation are called in turn, while views are made and narrowed, questions are
asked, the relation is written and others read it. All of this may grow the relation's manager
between two calls on a cursor.

* `Narrowing`, `Question`, `ViewQuestion`, `SetOperation`: the work that leaves a relation's tuples;
* `Session`, `Deed`, `Session.step`: cursors, views and other relations beside an open relation, and
  what is done with them;
* `Reader.Isolated`: **a cursor has handed out what it would have handed out alone, up to there**;
* `Standing`: views stand for excerpts, and cursors list what is left of their items, in the manager
  of the moment;
* `Question.upholds`, `narrows_run`, `stands_new`, `Reader.Stands.next`: the work, piece by piece;
* `Session.lent_step`, `Session.lent_perform`: **every deed keeps it**, and so does every run;
* `reached_readers`: **so cursors are isolated from such work, and from each other.**
-/

namespace Factbase.Relation

open Diagram

/-! ## 1. Work -/

/-- A call that narrows a view, by index or by value. -/
inductive Narrowing where
  | byIndex (call : ViewCall)
  | select (slot : Nat) (value : Value)
  | selectAndDelete (slot : Nat) (value : Value)

/-- The call on a view. -/
def Narrowing.run (cat : Catalog) (v : View) : Narrowing → RelationM View
  | .byIndex call => call.run cat v
  | .select slot value => v.select cat slot value
  | .selectAndDelete slot value => v.selectAndDelete cat slot value

/-- A question about a relation. -/
inductive Question where
  | containsIndices (t : List Nat)
  | contains (values : List Value)
  | sizeExact
  | size
  | isEmpty
  | dot

/-- Ask and forget the answer. -/
def Question.run (cat : Catalog) : Question → RelationM Unit
  | .containsIndices t => do let _ ← Relation.containsIndices cat t
  | .contains values => do let _ ← Relation.contains cat values
  | .sizeExact => do let _ ← Relation.sizeExact
  | .size => do let _ ← Relation.size
  | .isEmpty => do let _ ← Relation.isEmpty
  | .dot => do let _ ← Relation.dot

/-- A question about a view. -/
inductive ViewQuestion where
  | containsIndices (t : List Nat)
  | sizeExact
  | size
  | isEmpty

/-- Ask and forget the answer. -/
def ViewQuestion.run (cat : Catalog) (v : View) : ViewQuestion → RelationM Unit
  | .containsIndices t => do let _ ← v.containsIndices cat t
  | .sizeExact => do let _ ← v.sizeExact
  | .size => do let _ ← v.size
  | .isEmpty => do let _ ← v.isEmpty

/-- What another relation does with the tuples of one. -/
inductive SetOperation where
  | union
  | intersect
  | subtract

/-- The operation, of the relation that changes. -/
def SetOperation.run (cat : Catalog) (r : Relation) : SetOperation → RelationM Unit
  | .union => unionWith cat r
  | .intersect => intersectWith cat r
  | .subtract => Relation.subtract cat r

/-! ## 2. Sessions -/

/-- A cursor in use. -/
structure Reader where
  source : Source
  cursor : Cursor
  /-- What it would have handed out, had it been run to its end when it was made. -/
  alone : Except Failure (List Item)
  /-- What the calls so far came to. -/
  given : List (Except Failure (Option Item))

/-- **A cursor has handed out what it would have handed out alone, up to there**, and nothing behind
its end. -/
def Reader.Isolated (reader : Reader) : Prop :=
  ∃ items, reader.alone = .ok items ∧
    reader.given = (List.range reader.given.length).map fun n => .ok items[n]?

/-- An open relation with its views and cursors, the files, and other relations. -/
structure Session where
  relation : Relation
  files : Files
  others : List Relation
  views : List View
  readers : List Reader

/-- What is done in a session. Views, cursors and other relations are numbered. -/
inductive Deed where
  | tuples
  | tuplesOf (slots : List Nat)
  | viewTuples (k : Nat)
  | values (types : List ElementType)
  | next (j : Nat)
  | create
  | narrow (k : Nat) (call : Narrowing)
  | ask (question : Question)
  | look (k : Nat) (question : ViewQuestion)
  | writeTo (folder : Path)
  | lend (k : Nat) (operation : SetOperation)

namespace Session

variable (cat : Catalog) (s : Session)

/-- A new cursor, where there can be one. -/
def start (source : Source) : Session :=
  match source.cursor s.relation with
  | .ok cursor r =>
      { s with
        relation := r
        readers := s.readers ++ [⟨source, cursor, answer (source.alone cat) s.relation, []⟩] }
  | .error _ r => { s with relation := r }

/-- The next item of a cursor. -/
def call (reader : Reader) (j : Nat) : Session :=
  match reader.source.next cat reader.cursor s.relation with
  | .ok (item, cursor) r =>
      { s with
        relation := r
        readers := s.readers.set j { reader with cursor, given := reader.given ++ [.ok item] } }
  | .error e r =>
      { s with
        relation := r
        readers := s.readers.set j { reader with given := reader.given ++ [.error e] } }

/-- A narrowed view. It stays as it was where the call is refused. -/
def narrow (v : View) (k : Nat) (call : Narrowing) : Session :=
  match call.run cat v s.relation with
  | .ok v r => { s with relation := r, views := s.views.set k v }
  | .error _ r => { s with relation := r }

/-- A deed. Nothing is done where it names a view, a cursor or a relation that there is not. -/
def step : Deed → Session
  | .tuples => s.start cat .all
  | .tuplesOf slots => s.start cat (.onto slots)
  | .viewTuples k => s.views[k]?.elim s fun v => s.start cat (.view v)
  | .values types => s.start cat (.values types)
  | .next j => s.readers[j]?.elim s fun reader => s.call cat reader j
  | .create =>
      match View.create s.relation with
      | .ok v r => { s with relation := r, views := s.views ++ [v] }
      | .error _ r => { s with relation := r }
  | .narrow k call => s.views[k]?.elim s fun v => s.narrow cat v k call
  | .ask question => { s with relation := after (question.run cat) s.relation }
  | .look k question => s.views[k]?.elim s fun v =>
      { s with relation := after (question.run cat v) s.relation }
  | .writeTo folder =>
      let behind := after (Relation.writeTo folder) (s.relation, s.files)
      { s with relation := behind.1, files := behind.2 }
  | .lend k operation => s.others[k]?.elim s fun other =>
      { s with others := s.others.set k (after (operation.run cat s.relation) other) }

/-- A run of deeds. -/
def perform (deeds : List Deed) : Session := deeds.foldl (step cat) s

end Session

/-! ## 3. What is kept -/

/-- A cursor has handed out the first ones of its items and lists the tuples of the others. -/
structure Reader.Stands (cat : Catalog) (schema : Schema) (m : Manager) (reader : Reader)
    (items : List Item) (ts : List Tuple) : Prop where
  held : reader.cursor.Held m
  alone : reader.alone = .ok items
  given : reader.given = (List.range reader.given.length).map fun n => .ok items[n]?
  rest : items.drop reader.given.length = ts.map (reader.source.item cat schema)
  lists : Lists (Cursor.next m) ts reader.cursor

/-- The views stand for excerpts, and the cursors have items left. -/
structure Standing (cat : Catalog) (schema : Schema) (views : List View) (readers : List Reader)
    (c : Contents) : Prop where
  views : ∀ v ∈ views, ∃ x, v.StandsFor c x
  readers : ∀ reader ∈ readers, ∃ items ts, reader.Stands cat schema c.manager items ts

/-- **Views and cursors do not mind that the manager grows.** -/
theorem Standing.next {cat : Catalog} {schema : Schema} {views : List View} {readers : List Reader}
    {c : Contents} (h : Standing cat schema views readers c) (hc : c.Sound schema) {m : Manager}
    (n : c.manager.Next m) : Standing cat schema views readers { c with manager := m } where
  views v hv := (h.views v hv).imp fun _ hx => hx.next hc n
  readers reader hreader := by
    obtain ⟨items, ts, hr⟩ := h.readers reader hreader
    exact ⟨items, ts, hr.held.grown n, hr.alone, hr.given, hr.rest,
      hr.held.lists hc.manager n hr.lists⟩

/-! ## 4. Work that lasts -/

section Work

variable {i : Relation → Prop} (hi : Lasting i) {r : Relation} (h : i r) (cat : Catalog)

include hi h

theorem Question.upholds (question : Question) :
    Upholds i (question.run cat) r fun _ _ => True := by
  cases question with
  | containsIndices t => exact (upholds_test hi (upholds_checked hi h cat t)).forget
  | contains values => exact (upholds_test hi (upholds_resolved hi h cat values)).forget
  | sizeExact => exact (upholds_question hi h _).forget
  | size => exact ((upholds_question hi h _).bind fun _ _ h' _ => upholds_pure h' trivial).forget
  | isEmpty => exact ((upholds_opening hi h).bind fun _ _ h' _ => upholds_pure h' trivial).forget
  | dot => exact ((upholds_opening hi h).bind fun _ _ h' _ => upholds_question hi h' _).forget

theorem ViewQuestion.upholds {v : View} (hv : v.On r) (question : ViewQuestion) :
    Upholds i (question.run cat v) r fun _ _ => True := by
  cases question with
  | containsIndices t => exact (v.upholds_containsIndices hi h hv cat t).forget
  | sizeExact => exact (upholds_question hi h _).forget
  | size => exact ((upholds_question hi h _).bind fun _ _ h' _ => upholds_pure h' trivial).forget
  | isEmpty => exact ((upholds_opening hi h).bind fun _ _ h' _ => upholds_pure h' trivial).forget

end Work

section Narrowing

variable {r : Relation} {schema : Schema} {c : Contents} (hopen : r.stage = .opened schema c)
  {v : View}

include hopen

/-- A value is selected by its index, or refused. -/
theorem View.select_cases (cat : Catalog) (slot : Nat) (value : Value) :
    (∃ e, v.select cat slot value r = .error e r) ∨
      ∃ index, v.select cat slot value r = v.selectIndex cat slot index r := by
  unfold select
  by_cases hslot : slot ∈ v.slots
  · rw [bind_of_ok (requireSlot_eq hslot), bind_of_ok (opening_eq hopen)]
    cases hresolve : resolveValue (schema.domain cat slot) slot value with
    | error problem =>
        exact Or.inl ⟨_, bind_eq_error (orProblem_eq_error hresolve)⟩
    | ok index => exact Or.inr ⟨index, bind_of_ok (orProblem_eq_ok hresolve)⟩
  · obtain ⟨e, hrefused⟩ := requireSlot_error (r := r) hslot
    exact Or.inl ⟨e, bind_eq_error hrefused⟩

omit hopen in
/-- The program is refused, or comes to a view that stands for an excerpt. -/
def Narrows (r : Relation) (schema : Schema) (c : Contents) (act : RelationM View) : Prop :=
  (∃ e, act r = .error e r) ∨
    Ends act r fun v => Lent r schema c fun c' => ∃ x, v.StandsFor c' x

omit hopen in
theorem Narrows.congr {act act' : RelationM View} (h : Narrows r schema c act')
    (run : act r = act' r) : Narrows r schema c act := by
  unfold Narrows Ends
  rw [run]
  exact h

/-- **A call on a view is refused, or it comes to a view that stands for an excerpt.** -/
theorem narrows_run (cat : Catalog) (hc : c.Sound schema) {x : Excerpt} (h : v.StandsFor c x)
    (call : Narrowing) : Narrows r schema c (call.run cat v) := by
  have byIndex : ∀ call : ViewCall, Narrows r schema c (call.run cat v) := by
    intro call
    by_cases hadmitted : call.Admitted cat schema c.layout x
    · refine Or.inr (Ends.mono (call.ends_run hopen h hc hadmitted) fun v' r' hlent => ?_)
      obtain ⟨m, n, hr', h'⟩ := hlent
      exact ⟨m, n, hr', _, h'⟩
    · exact Or.inl (call.run_error hopen h hadmitted)
  cases call with
  | byIndex call => exact byIndex call
  | select slot value =>
      rcases v.select_cases hopen cat slot value with ⟨e, run⟩ | ⟨index, run⟩
      · exact Or.inl ⟨e, run⟩
      · exact (byIndex (.selectIndex slot index)).congr run
  | selectAndDelete slot value =>
      rcases v.select_cases hopen cat slot value with ⟨e, run⟩ | ⟨index, run⟩
      · exact Or.inl ⟨e, bind_eq_error run⟩
      · exact (byIndex (.selectIndexAndDelete slot index)).congr (bind_congr_run run)

/-- A view that stands for an excerpt is one of the relation. -/
theorem View.StandsFor.on {x : Excerpt} (h : v.StandsFor c x) : v.On r := fun _ _ hopen' => by
  obtain ⟨_, rfl⟩ := Stage.opened.inj (hopen.symm.trans hopen')
  exact ⟨h.held, h.arity⟩

end Narrowing

/-! ## 5. Readers -/

section Readers

variable {cat : Catalog} {schema : Schema}

/-- A new cursor has all its items left. -/
theorem stands_new {r r' : Relation} {c c' : Contents} (hopen : r.stage = .opened schema c)
    (hopen' : r'.stage = .opened schema c') {source : Source} {cursor : Cursor}
    (run : source.cursor r = .ok cursor r') (hfresh : Fresh cursor c') :
    ∃ items ts, Reader.Stands cat schema c'.manager
      ⟨source, cursor, answer (source.alone cat) r, []⟩ items ts := by
  obtain ⟨blocks, f, hspells, rfl⟩ := hfresh
  have hlen : ((listed c'.manager blocks f).map ofIndices).length ≤ Cursor.bound c'.manager := by
    rw [List.length_map]
    exact hspells.length_listed_le
  have htake : takeTuples _ none r' = .ok ((listed c'.manager blocks f).map ofIndices) r' :=
    onManager_ask_eq hopen' (Cursor.toList_eq hspells.lists hlen none)
  have halone := Source.alone_eq hopen cat run htake
  refine ⟨_, _, Cursor.held_start hspells.held _ _, ?_, rfl, List.drop_zero, hspells.lists⟩
  rw [answer, halone]

variable {m : Manager} {reader : Reader} {items : List Item} {ts : List Tuple}

/-- A cursor that is called once more has one item less left. -/
theorem Reader.Stands.next (h : reader.Stands cat schema m items ts) {cursor' : Cursor}
    (held : cursor'.Held m) (lists : Lists (Cursor.next m) ts.tail cursor') :
    Reader.Stands cat schema m { reader with
      cursor := cursor'
      given := reader.given ++ [.ok (ts.head?.map (reader.source.item cat schema))] }
      items ts.tail where
  held := held
  alone := h.alone
  given := by
    have hlast : items[reader.given.length]? = ts.head?.map (reader.source.item cat schema) := by
      rw [← List.head?_drop, h.rest, List.head?_map]
    dsimp only
    rw [List.length_append, List.length_singleton, List.range_succ, List.map_append,
      ← h.given, List.map_singleton, hlast]
  rest := by
    dsimp only
    rw [List.length_append, List.length_singleton, ← List.tail_drop, h.rest, List.map_tail]
  lists := lists

theorem Reader.Stands.isolated (h : reader.Stands cat schema m items ts) : reader.Isolated :=
  ⟨items, h.alone, h.given⟩

end Readers

/-! ## 6. Steps -/

namespace Session

section Steps

variable {cat : Catalog} {schema : Schema} {c : Contents} {s : Session} (hs : s.relation.Sound)
  (hopen : s.relation.stage = .opened schema c) (h : Standing cat schema s.views s.readers c)

include hs hopen h

theorem lent_start {source : Source} (hviews : ∀ v, source = .view v → v ∈ s.views) :
    Lent s.relation schema c
      (Standing cat schema (s.start cat source).views (s.start cat source).readers)
      (s.start cat source).relation := by
  have hc := (hs.contents hopen).2
  by_cases hadmitted : source.Admitted s.views c.layout
  · obtain ⟨cursor, r', run, m, n, hr', hfresh⟩ := Source.ends_cursor hopen hc h.views hadmitted
    have hkept := h.next hc n
    simp only [start, run]
    refine ⟨m, n, hr', hkept.views, List.forall_mem_append.mpr ⟨hkept.readers, ?_⟩⟩
    exact List.forall_mem_singleton.mpr (stands_new hopen (congrArg stage hr') run hfresh)
  · obtain ⟨e, run⟩ := Source.cursor_error hopen hviews hadmitted
    simp only [start, run]
    exact lent_refl hopen hc h

theorem lent_call {reader : Reader} {j : Nat} (hget : s.readers[j]? = some reader) :
    Lent s.relation schema c
      (Standing cat schema (s.call cat reader j).views (s.call cat reader j).readers)
      (s.call cat reader j).relation := by
  have hc := (hs.contents hopen).2
  obtain ⟨items, ts, hr⟩ := h.readers reader (List.mem_of_getElem? hget)
  obtain ⟨cursor', run, hlists⟩ := hr.lists.step
  have held := (Cursor.same_next hc.manager (.refl hc.manager) hr.held).2 _ run
  simp only [call, Source.next_eq hopen cat run]
  refine lent_refl hopen hc ⟨h.views, fun other hother => ?_⟩
  rcases List.mem_or_eq_of_mem_set hother with hother | rfl
  · exact h.readers other hother
  · exact ⟨items, _, hr.next held hlists⟩

theorem lent_narrow {v : View} {k : Nat} (hget : s.views[k]? = some v) (call : Narrowing) :
    Lent s.relation schema c
      (Standing cat schema (s.narrow cat v k call).views (s.narrow cat v k call).readers)
      (s.narrow cat v k call).relation := by
  have hc := (hs.contents hopen).2
  obtain ⟨x, hv⟩ := h.views v (List.mem_of_getElem? hget)
  rcases narrows_run hopen cat hc hv call with ⟨e, run⟩ | ⟨v', r', run, m, n, hr', hv'⟩
  · simp only [narrow, run]
    exact lent_refl hopen hc h
  · have hkept := h.next hc n
    simp only [narrow, run]
    refine ⟨m, n, hr', fun w hw => ?_, hkept.readers⟩
    rcases List.mem_or_eq_of_mem_set hw with hw | rfl
    · exact hkept.views w hw
    · exact hv'

/-- **Every deed leaves the tuples, the views and the cursors.** -/
theorem lent_step (deed : Deed) : Lent s.relation schema c
    (Standing cat schema (s.step cat deed).views (s.step cat deed).readers)
    (s.step cat deed).relation := by
  have hc := (hs.contents hopen).2
  have hrefl := lent_refl hopen hc h
  have hlasting : Lasting (Lent s.relation schema c (Standing cat schema s.views s.readers)) :=
    lasting_lent hs hopen fun hc n h => h.next hc n
  cases deed with
  | tuples => exact lent_start hs hopen h fun _ heq => by cases heq
  | tuplesOf slots => exact lent_start hs hopen h fun _ heq => by cases heq
  | values types => exact lent_start hs hopen h fun _ heq => by cases heq
  | viewTuples k =>
      rw [step]
      cases hget : s.views[k]? with
      | none => exact hrefl
      | some v => exact lent_start hs hopen h fun w heq =>
          Source.view.inj heq ▸ List.mem_of_getElem? hget
  | next j =>
      rw [step]
      cases hget : s.readers[j]? with
      | none => exact hrefl
      | some reader => exact lent_call hs hopen h hget
  | create =>
      rw [step, View.create_eq hopen]
      exact lent_refl hopen hc ⟨List.forall_mem_append.mpr ⟨h.views,
        List.forall_mem_singleton.mpr ⟨_, View.standsFor_whole hc⟩⟩, h.readers⟩
  | narrow k call =>
      rw [step]
      cases hget : s.views[k]? with
      | none => exact hrefl
      | some v => exact lent_narrow hs hopen h hget call
  | ask question => exact (question.upholds hlasting hrefl cat).after
  | look k question =>
      rw [step]
      cases hget : s.views[k]? with
      | none => exact hrefl
      | some v =>
          obtain ⟨x, hv⟩ := h.views v (List.mem_of_getElem? hget)
          exact (question.upholds hlasting hrefl cat (hv.on hopen)).after
  | writeTo folder => exact (upholds_writeTo hlasting hrefl s.files folder).after
  | lend k operation =>
      rw [step]
      cases s.others[k]? with
      | none => exact hrefl
      | some other => exact hrefl

omit h in
/-- **So does every run of deeds.** -/
theorem lent_perform (cat : Catalog) (h : Standing cat schema s.views s.readers c)
    (deeds : List Deed) : Lent s.relation schema c
    (Standing cat schema (s.perform cat deeds).views (s.perform cat deeds).readers)
    (s.perform cat deeds).relation := by
  induction deeds generalizing s c with
  | nil => exact lent_refl hopen (hs.contents hopen).2 h
  | cons deed deeds ih =>
      have hstep := lent_step hs hopen h deed
      have hsound := (lasting_lent hs hopen fun hc n h => h.next hc n).sound hstep
      exact hstep.bind fun m n hopen' h' => ih hsound hopen' h'

end Steps

end Session

/-! ## 7. Main result -/

/-- **Cursors are isolated from work that leaves the tuples.** Beside an open relation that is
reached, let cursors over its tuples, over projections, over views and over values be made and
called in any order, views be made, narrowed and asked, questions be asked, the relation be written
and other relations be combined with it. Every cursor then has handed out, call by call, exactly
what it would have handed out had it been run to its end when it was made, and nothing behind its
end. A source that is one of the relation still gets a cursor. -/
theorem reached_readers {r : Relation} (h : Reached r) {schema : Schema} {c : Contents}
    (hopen : r.stage = .opened schema c) (cat : Catalog) (files : Files) (others : List Relation)
    (deeds : List Deed) :
    let s := Session.perform cat ⟨r, files, others, [], []⟩ deeds
    (∀ reader ∈ s.readers, reader.Isolated) ∧
      ∀ source : Source, source.Admitted s.views c.layout →
        ∃ cursor r', source.cursor s.relation = .ok cursor r' := by
  have hrun := Session.lent_perform (s := ⟨r, files, others, [], []⟩) h.sound hopen cat
    ⟨fun _ hv => absurd hv List.not_mem_nil, fun _ hr => absurd hr List.not_mem_nil⟩ deeds
  obtain ⟨m, n, hr', hkept⟩ := hrun
  have hc := h.contents hopen
  refine ⟨fun reader hreader => ?_, fun source hadmitted => ?_⟩
  · obtain ⟨items, ts, hstands⟩ := hkept.readers reader hreader
    exact hstands.isolated
  · obtain ⟨cursor, r', run, _⟩ := Source.ends_cursor (congrArg stage hr')
      (hc.next n (n.holds hc.root)) hkept.views hadmitted
    exact ⟨cursor, r', run⟩

/-- Two cursors of a relation with one tuple, among a view that is narrowed, a question and another
relation that takes the tuple. -/
theorem reached_readers_pair : ∃ r schema c cat other deeds, Reached r ∧
    r.stage = .opened schema c ∧
    let s := Session.perform cat ⟨r, {}, [other], [], []⟩ deeds
    (∃ reader ∈ s.readers, reader.given =
      [.ok (some (.indices ⟨[1]⟩)), .ok none] ∧ reader.Isolated) ∧
    (∃ reader ∈ s.readers, reader.given = [.ok (some (.indices ⟨[1, 1]⟩))] ∧ reader.Isolated) ∧
    ∃ cursor r', Source.all.cursor s.relation = .ok cursor r' := by
  let cat : Catalog := ⟨#[.words ⟨"V", fun n => s!"{n}", ⟨#[7, 9], ∅⟩⟩]⟩
  let blank : Relation := create (some ⟨2, 2, 0.2, false, .native⟩)
  let bound := after (setDomains cat [0])
    (after (setSignature ⟨["V0"], none, [[0]]⟩) (after (setName "vP") blank))
  let other := after (zero cat []) bound
  let r := after (addIndices cat [1]) other
  let deeds : List Deed := [.tuples, .create, .narrow 0 (.byIndex (.delete 0)), .tuplesOf [0, 0],
    .next 0, .ask (.containsIndices [0]), .next 1, .lend 0 .union, .next 0]
  have hr : Reached r := (((((Reached.create _).act (.setName "vP")).act
    (.setSignature ⟨["V0"], none, [[0]]⟩)).act (.setDomains cat [0])).act (.zero cat [])).act
    (.addIndices cat [1])
  have hstate : r.state = .opened := by decide +kernel
  have hgiven : (Session.perform cat ⟨r, {}, [other], [], []⟩ deeds).readers.map Reader.given =
      [[.ok (some (.indices ⟨[1]⟩)), .ok none], [.ok (some (.indices ⟨[1, 1]⟩))]] := by
    decide +kernel
  cases hopen : r.stage with
  | opened schema c =>
      obtain ⟨hreaders, hsource⟩ := reached_readers hr hopen cat {} [other] deeds
      have hmem : ∀ {given}, given ∈ (Session.perform cat ⟨r, {}, [other], [], []⟩
          deeds).readers.map Reader.given → ∃ reader ∈ (Session.perform cat
            ⟨r, {}, [other], [], []⟩ deeds).readers, reader.given = given ∧ reader.Isolated := by
        intro given hmem
        obtain ⟨reader, hreader, heq⟩ := List.mem_map.mp hmem
        exact ⟨reader, hreader, heq, hreaders reader hreader⟩
      refine ⟨r, schema, c, cat, other, deeds, hr, hopen, hmem ?_, hmem ?_, hsource .all trivial⟩
      · rw [hgiven]
        exact List.mem_cons_self
      · rw [hgiven]
        exact List.mem_cons_of_mem _ List.mem_cons_self
  | _ =>
      rw [state, hopen] at hstate
      cases hstate

end Factbase.Relation
