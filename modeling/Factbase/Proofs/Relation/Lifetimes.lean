import Factbase.Proofs.Relation.Viewing

/-!
# Lifetimes of relations

Whatever is done with a relation from its creation on, in whatever order and over whatever domains,
and whether it is answered or refused, it stays sound.

* `Action r act`: `act` may be done with `r`;
* `Reached`: the relations that are reached by actions;
* `Reached.sound`: **every relation that is reached is sound.**
-/

namespace Factbase.Relation

open Diagram

variable {r : Relation}

/-! ## 1. Files and other relations -/

/-- **Loading comes to a relation with the layout that was prepared**, or leaves it as it was. -/
theorem load_outcome (cat : Catalog) (env : Environment) (files : Files) (folder : Path) :
    (∃ failure, load cat env files folder r = .error failure r) ∨
      (∃ error warnings, load cat env files folder r = .ok ⟨.error error, warnings⟩ r) ∨
      ∃ p fileVars lines root dropped m warnings, r.prepare cat env = .ok p ∧
        readContents p.layout (fit p.layout fileVars) lines p.manager =
          .ok (.ok (root, dropped)) m ∧
        load cat env files folder r =
          .ok ⟨.ok (), warnings⟩ (r.withContents p.schema ⟨m, root, p.layout⟩) := by
  cases hp : r.prepare cat env with
  | error fault => exact .inl ⟨.fault fault, by simp only [load, hp]⟩
  | ok p =>
  cases hread : files.read? (folder.join (diagramFile p.schema.name)) with
  | error error => exact .inr (.inl ⟨_, _, by simp only [load, hp, hread]; rfl⟩)
  | ok data =>
  cases hheader : Header.read p.schema.signature.names (p.layout.slots.map List.length)
    (Text.byteLines data) with
  | error error =>
      cases error <;> exact .inr (.inl ⟨_, _, by simp only [load, hp, hread, hheader]; rfl⟩)
  | ok parts =>
  obtain ⟨fileVars, lines⟩ := parts
  cases run : readContents p.layout (fit p.layout fileVars) lines p.manager with
  | error fault m => exact .inl ⟨.fault fault, by simp only [load, hp, hread, hheader, run]⟩
  | ok result m =>
  cases result with
  | error error => exact .inr (.inl ⟨_, _, by simp only [load, hp, hread, hheader, run]; rfl⟩)
  | ok parts =>
      exact .inr (.inr ⟨p, fileVars, lines, parts.1, parts.2, m, _, rfl, run, by
        simp only [load, hp, hread, hheader, run]; rfl⟩)

theorem upholds_load (h : r.Sound) (cat : Catalog) (env : Environment) (files : Files)
    (folder : Path) : Upholds Sound (load cat env files folder) r fun _ _ => True := by
  rcases load_outcome (r := r) cat env files folder with ⟨_, run⟩ | ⟨_, _, run⟩ |
    ⟨p, fileVars, lines, root, dropped, m, _, hp, hcontents, run⟩
  · exact upholds_of_error run h
  · exact upholds_of_ok run h trivial
  · obtain ⟨_, hm, hl, _⟩ := sound_prepare hp
    obtain ⟨n, hroot⟩ := (ends_readContents hl hm fileVars lines).of_ok hcontents
    exact upholds_of_ok run (sound_opened h hp n (hroot _ rfl).1) trivial

/-- The other layout's variables have their counterparts among this layout's. -/
theorem counterparts_allocated {here there : Layout} {m : Manager} (hl : here.Sound m) (v w : Nat)
    (hget : (counterparts here there)[v]? = some w) : m.order.Allocated w :=
  hl.mem_flatten.mp (List.of_mem_zip (mem_of_getElem?_ofList hget)).2

section Combining

variable {i : Relation → Prop} (h : i r)

include h

/-- **Another relation's diagram is read into this one's manager.** -/
theorem upholds_importFrom (hi : Lasting i) (cat : Catalog) (other : Relation) :
    Upholds i (importFrom cat other) r fun e r' => ∀ schema c,
      r'.stage = .opened schema c → c.manager.Holds e := by
  unfold importFrom
  refine (upholds_opening hi h).bind fun parts r₁ h₁ ⟨hr₁, c, hopen, _, _, hlayout⟩ => ?_
  obtain ⟨schema, root, layout⟩ := parts
  dsimp only at hopen hlayout ⊢
  cases other.openContents with
  | error fault => exact (upholds_misuse h₁).bind fun _ _ _ hfalse => hfalse.elim
  | ok parts =>
  obtain ⟨otherSchema, otherContents⟩ := parts
  simp only [pure_bind]
  cases mismatch? cat (schema, layout) (otherSchema, otherContents.layout) with
  | some found => exact (upholds_problem h₁).bind fun _ _ _ hfalse => hfalse.elim
  | none =>
  cases bodyLines otherContents with
  | error fault => exact (upholds_misuse h₁).bind fun _ _ _ hfalse => hfalse.elim
  | ok lines =>
  have hread : Upholds i (onManager fun _ _ => Manager.readBody
      ((counterparts layout otherContents.layout)[·]?) lines) r₁ fun result r₂ => ∀ schema c,
        r₂.stage = .opened schema c → ∀ e, result = .ok e → c.manager.Holds e := by
    refine upholds_onManager hi h₁ fun schema' c' hopen' hc' => ?_
    have hl := hc'.layout
    have hsame : c'.layout = layout := by
      rw [hr₁, hopen] at hopen'
      obtain ⟨_, rfl⟩ := Stage.opened.inj hopen'
      exact hlayout
    rw [hsame] at hl
    refine (Manager.proceeds_of_ends (Manager.ends_readBody hc'.manager
      (counterparts_allocated hl) lines)).mono fun result m _ hheld s c hstage e he => ?_
    obtain ⟨_, rfl⟩ := Stage.opened.inj hstage
    exact hheld e he
  dsimp only
  refine hread.bind fun result r₂ h₂ hresult => ?_
  cases result with
  | ok e => exact upholds_pure h₂ fun schema c hstage => hresult schema c hstage e rfl
  | error error => exact (upholds_problem h₂).mono fun _ _ _ hfalse => hfalse.elim

/-- The tuples of another relation, combined with those of this one. -/
theorem spares_combined (hi : Lasting i) (cat : Catalog) (other : Relation)
    {act : Edge → Edge → Op Edge} (hact : ∀ m e f, m.WellFormed → m.Holds e → m.Holds f →
      Manager.Proceeds (act e f) m fun e' m' => m'.Holds e') :
    Spares i (do
      let f ← importFrom cat other
      update fun root _ => act root f) r fun _ => Rerooted i :=
  (upholds_importFrom h hi cat other).spares_bind fun f _ h' hf =>
    spares_update hi h' fun schema c hopen hc =>
      hact c.manager c.root f hc.manager hc.root (hf schema c hopen)

theorem spares_unionWith (hi : Lasting i) (cat : Catalog) (other : Relation) :
    Spares i (unionWith cat other) r fun _ => Rerooted i :=
  spares_combined h hi cat other fun _ _ _ hm he hf => (Manager.makes_disj hm he hf).proceeds

theorem spares_intersectWith (hi : Lasting i) (cat : Catalog) (other : Relation) :
    Spares i (intersectWith cat other) r fun _ => Rerooted i :=
  spares_combined h hi cat other fun _ _ _ hm he hf => (Manager.makes_conj hm he hf).proceeds

theorem spares_subtract (hi : Lasting i) (cat : Catalog) (other : Relation) :
    Spares i (subtract cat other) r fun _ => Rerooted i :=
  spares_combined h hi cat other fun _ _ _ hm he hf => (Manager.makes_diff hm he hf).proceeds

end Combining

/-! ## 2. Tuples -/

section Tuples

variable {i : Relation → Prop} (hi : Lasting i) (h : i r)

include hi h

/-- A tuple of indices that passes is valid. -/
theorem upholds_checked (cat : Catalog) (t : List Nat) :
    Upholds i (checked cat t) r fun t' r' => r' = r ∧
      ∃ schema c, r.stage = .opened schema c ∧ Valid cat schema c.layout t' := by
  refine (upholds_opening hi h).bind fun parts r' h' ⟨hr', c, hopen, _, _, hlayout⟩ => ?_
  refine (upholds_orProblem h').mono fun t' r'' _ ⟨hr'', hcheck⟩ =>
    ⟨hr''.trans hr', _, c, hopen, ?_⟩
  obtain ⟨hvalid, rfl⟩ := valid_of_checkTuple hcheck
  rw [hlayout]
  exact hvalid

/-- A tuple of values that passes has become a valid tuple of indices. -/
theorem upholds_resolved (cat : Catalog) (values : List Value) :
    Upholds i (resolved cat values) r fun t' r' => r' = r ∧
      ∃ schema c, r.stage = .opened schema c ∧ Valid cat schema c.layout t' := by
  refine (upholds_opening hi h).bind fun parts r' h' ⟨hr', c, hopen, _, _, hlayout⟩ => ?_
  refine (upholds_orProblem h').mono fun t' r'' _ ⟨hr'', hcheck⟩ =>
    ⟨hr''.trans hr', _, c, hopen, ?_⟩
  obtain ⟨_, _, hcheck⟩ := ok_of_bind hcheck
  obtain ⟨_, _, hcheck⟩ := ok_of_bind hcheck
  obtain ⟨hvalid, rfl⟩ := valid_of_checkTuple hcheck
  rw [hlayout]
  exact hvalid

section Sources

variable {source : RelationM (List Nat)} {cat : Catalog}
  (hsource : Upholds i source r fun t r' => r' = r ∧
    ∃ schema c, r.stage = .opened schema c ∧ Valid cat schema c.layout t)

include hsource

omit h

/-- A tuple that passed is combined with the tuples of the relation. -/
theorem spares_edit {act : Edge → Edge → Op Edge} (hact : ∀ m e f, m.WellFormed → m.Holds e →
      m.Holds f → Manager.Proceeds (act e f) m fun e' m' => m'.Holds e') :
    Spares i (do
      let t ← source
      update fun root layout => do act root (← layout.tupleCube t)) r fun _ => Rerooted i := by
  refine hsource.spares_bind fun t r' h' ⟨hr', schema, c, hopen, hvalid⟩ => ?_
  subst hr'
  refine spares_update hi h' fun schema' c' hopen' hc => ?_
  obtain ⟨_, rfl⟩ := Stage.opened.inj (hopen.symm.trans hopen')
  exact (hc.layout.makes_tupleCube hc.manager hvalid.fits).proceeds.bind fun cube m n hcube =>
    hact m c.root cube n.1 (n.holds hc.root) hcube

theorem spares_addition : Spares i (source >>= addChecked) r fun _ => Rerooted i :=
  spares_edit hi hsource fun _ _ _ hm he hf => (Manager.makes_disj hm he hf).proceeds

theorem spares_removal : Spares i (source >>= removeChecked) r fun _ => Rerooted i :=
  spares_edit hi hsource fun _ _ _ hm he hf => (Manager.makes_diff hm he hf).proceeds

/-- A tuple that passed is tested. -/
theorem upholds_test : Upholds i (source >>= containsChecked) r fun _ _ => True := by
  refine hsource.bind fun t r' h' ⟨hr', schema, c, hopen, hvalid⟩ => ?_
  subst hr'
  refine upholds_onManager hi h' fun schema' c' hopen' hc => ?_
  obtain ⟨_, rfl⟩ := Stage.opened.inj (hopen.symm.trans hopen')
  refine (hc.layout.makes_tupleCube hc.manager hvalid.fits).proceeds.bind fun cube m n hcube => ?_
  exact (Manager.makes_conj n.1 (n.holds hc.root) hcube).proceeds.bind fun common m' n' _ =>
    Manager.proceeds_pure n'.1 trivial

end Sources

end Tuples

/-! ## 3. Writing -/

section Writing

variable {i : Relation → Prop}

/-- A program over the relation alone leaves the files. -/
theorem onRelation_eq_ok {α : Type} {act : RelationM α} {a : α} {r' : Relation}
    (run : act r = .ok a r') (files : Files) : onRelation act (r, files) = .ok a (r', files) := by
  simp only [onRelation, run]

theorem onRelation_eq_error {α : Type} {act : RelationM α} {e : Failure} {r' : Relation}
    (run : act r = .error e r') (files : Files) :
    onRelation act (r, files) = .error e (r', files) := by
  simp only [onRelation, run]

/-- A program over the relation alone. -/
theorem upholds_onRelation {α : Type} {act : RelationM α} {post : α → Relation → Prop}
    (hact : Upholds i act r post) (files : Files) :
    Upholds (i ·.1) (onRelation act) (r, files) fun a s => post a s.1 := by
  cases run : act r with
  | ok a r' =>
      exact upholds_of_ok (onRelation_eq_ok run files) (hact.of_ok run).1 (hact.of_ok run).2
  | error e r' => exact upholds_of_error (onRelation_eq_error run files) (hact.of_error run)

theorem spares_onRelation {α : Type} {act : RelationM α} {post : α → Relation → Prop}
    (hact : Spares i act r post) (files : Files) :
    Spares (i ·.1) (onRelation act) (r, files) fun a s => post a s.1 := by
  cases run : act r with
  | ok a r' => exact spares_of_ok (onRelation_eq_ok run files) (hact.of_ok run)
  | error e r' => exact spares_of_error (onRelation_eq_error run files) (hact.of_error run)

section WriteFile

variable {files files' : Files} {path : Path} {text : String}

theorem writeFile_eq_ok (hwrite : files.writeText? path text = .ok files') :
    writeFile path text (r, files) = .ok () (r, files') := by
  simp only [writeFile, hwrite]

theorem writeFile_eq_error {error : AccessError}
    (hwrite : files.writeText? path text = .error error) : writeFile path text (r, files) =
      .error (.error ⟨r.name, .access path.text error⟩) (r, files) := by
  simp only [writeFile, hwrite]

end WriteFile

/-- A relation with the invariant has given its manager up. -/
def Shut (i : Relation → Prop) (r' : Relation) : Prop :=
  ∃ r schema c, i r ∧ r.stage = .opened schema c ∧ r' = { r with stage := .closed schema }

theorem close_eq {schema : Schema} {c : Contents} (hopen : r.stage = .opened schema c) :
    close r = .ok () { r with stage := .closed schema } := by
  simp only [close, hopen]

theorem spares_close (h : i r) : Spares i close r fun _ => Shut i := by
  obtain ⟨config, stage⟩ := r
  cases stage with
  | opened schema c => exact spares_of_ok rfl ⟨_, schema, c, h, rfl, rfl⟩
  | _ => exact spares_of_error rfl h

theorem upholds_writeFile (h : i r) (files : Files) (path : Path) (text : String) :
    Upholds (fun s : Relation × Files => i s.1) (writeFile path text) (r, files)
      fun _ _ => True := by
  cases hwrite : files.writeText? path text with
  | ok files' => exact upholds_of_ok (writeFile_eq_ok hwrite) h trivial
  | error error => exact upholds_of_error (writeFile_eq_error hwrite) h

section Lasting

variable (hi : Lasting i) (h : i r)

include hi h

theorem upholds_question {α : Type} (question : Edge → Layout → Manager → Except Fault α) :
    Upholds i (onManager fun root layout => Manager.ask (question root layout)) r
      fun _ _ => True :=
  upholds_onManager hi h fun _ _ _ hc => Manager.proceeds_ask hc.manager fun _ _ => trivial

theorem upholds_writeTo (files : Files) (folder : Path) :
    Upholds (i ·.1) (writeTo folder) (r, files) fun _ _ => True := by
  refine (upholds_onRelation (upholds_opening hi h) files).bind fun parts s h₁ _ => ?_
  refine (upholds_onRelation (upholds_question hi h₁ _) s.2).bind fun text s' h₂ _ => ?_
  exact upholds_writeFile h₂ _ _ _

theorem spares_save (files : Files) (folder : Path) :
    Spares (i ·.1) (save folder) (r, files) fun _ s => Shut i s.1 :=
  (upholds_writeTo hi h files folder).spares_bind fun _ s h' _ =>
    spares_onRelation (spares_close h') s.2

theorem spares_print (files : Files) (cat : Catalog) (folder : Path) :
    Spares (i ·.1) (print cat folder) (r, files) fun _ s => Shut i s.1 := by
  have hget : Upholds (fun s : Relation × Files => i s.1) (get : StorageM _) (r, files)
      fun _ _ => True := upholds_of_ok rfl h trivial
  refine hget.spares_bind fun s s' h' _ => ?_
  refine (upholds_writeFile h' s'.2 _ _).spares_bind fun _ s₁ h₁ _ => ?_
  refine (upholds_onRelation (upholds_opening hi h₁) s₁.2).spares_bind fun parts s₂ h₂ _ => ?_
  have htuples : Upholds i (do takeTuples (← tuples) none) s₂.1 fun _ _ => True :=
    (upholds_question hi h₂ _).bind fun c r' h' _ => upholds_question hi h' _
  refine (upholds_onRelation htuples s₂.2).spares_bind fun ts s₃ h₃ _ => ?_
  refine (upholds_writeFile h₃ s₃.2 _ _).spares_bind fun _ s₄ h₄ _ => ?_
  cases (tupleLines cat parts.1 ts).2 with
  | some fault => exact spares_of_error rfl h₄
  | none => exact spares_onRelation (spares_close h₄) s₄.2

end Lasting

end Writing

/-! ## 4. Histories -/

/-- What may be done with a relation, beyond asking questions that leave it as it is. -/
inductive Action (r : Relation) : {α : Type} → RelationM α → Prop
  | setName (name : String) : Action r (setName name)
  | setSignature (signature : Signature) : Action r (setSignature signature)
  | setDomains (cat : Catalog) (domains : List Nat) : Action r (setDomains cat domains)
  | one (cat : Catalog) (env : Environment) : Action r (one cat env)
  | zero (cat : Catalog) (env : Environment) : Action r (zero cat env)
  | load (cat : Catalog) (env : Environment) (files : Files) (folder : Path) :
      Action r (load cat env files folder)
  | close : Action r close
  | unionWith (cat : Catalog) (other : Relation) : Action r (unionWith cat other)
  | intersectWith (cat : Catalog) (other : Relation) : Action r (intersectWith cat other)
  | subtract (cat : Catalog) (other : Relation) : Action r (subtract cat other)
  | addIndices (cat : Catalog) (indices : List Nat) : Action r (addIndices cat indices)
  | removeIndices (cat : Catalog) (indices : List Nat) : Action r (removeIndices cat indices)
  | containsIndices (cat : Catalog) (indices : List Nat) : Action r (containsIndices cat indices)
  | add (cat : Catalog) (values : List Value) : Action r (add cat values)
  | remove (cat : Catalog) (values : List Value) : Action r (remove cat values)
  | contains (cat : Catalog) (values : List Value) : Action r (contains cat values)
  | tuplesOf (slots : List Nat) : Action r (tuplesOf slots)
  | selectIndex (v : View) (hv : v.On r) (cat : Catalog) (slot index : Nat) :
      Action r (v.selectIndex cat slot index)
  | select (v : View) (hv : v.On r) (cat : Catalog) (slot : Nat) (value : Value) :
      Action r (v.select cat slot value)
  | delete (v : View) (hv : v.On r) (slot : Nat) : Action r (v.delete slot)
  | selectAndDelete (v : View) (hv : v.On r) (cat : Catalog) (slot : Nat) (value : Value) :
      Action r (v.selectAndDelete cat slot value)
  | selectIndexAndDelete (v : View) (hv : v.On r) (cat : Catalog) (slot index : Nat) :
      Action r (v.selectIndexAndDelete cat slot index)
  | viewContains (v : View) (hv : v.On r) (cat : Catalog) (indices : List Nat) :
      Action r (v.containsIndices cat indices)

/-- What may be done with a relation and the files. -/
inductive Storing : {α : Type} → StorageM α → Prop
  | writeTo (folder : Path) : Storing (writeTo folder)
  | save (folder : Path) : Storing (save folder)
  | print (cat : Catalog) (folder : Path) : Storing (print cat folder)

/-- **The relations that are reached**: from a new one on, by whatever is done in whatever order,
whether it comes to a result or stops. -/
inductive Reached : Relation → Prop
  | create (config : Option Config) : Reached (Relation.create config)
  | act {r : Relation} {α : Type} {program : RelationM α} (h : Reached r)
      (ha : Action r program) : Reached (after program r)
  | store {r : Relation} {α : Type} {program : StorageM α} (h : Reached r) (files : Files)
      (ha : Storing program) : Reached (after program (r, files)).1

/-- What describes, opens or closes a relation. -/
inductive Transition : {α : Type} → RelationM α → Prop
  | setName (name : String) : Transition (setName name)
  | setSignature (signature : Signature) : Transition (setSignature signature)
  | setDomains (cat : Catalog) (domains : List Nat) : Transition (setDomains cat domains)
  | one (cat : Catalog) (env : Environment) : Transition (one cat env)
  | zero (cat : Catalog) (env : Environment) : Transition (zero cat env)
  | load (cat : Catalog) (env : Environment) (files : Files) (folder : Path) :
      Transition (load cat env files folder)
  | close : Transition close

section Dealings

variable {i : Relation → Prop} {α : Type} {program : RelationM α}

/-- What keeps the invariant does not change the diagram. -/
theorem spares_asking {post : α → Relation → Prop} (h : Upholds i program r post) :
    Spares i program r fun _ r' => i r' ∨ Rerooted i r' :=
  h.spares.mono fun _ _ h' => .inl h'.1

theorem spares_editing (h : Spares i program r fun _ => Rerooted i) :
    Spares i program r fun _ r' => i r' ∨ Rerooted i r' :=
  h.mono fun _ _ => .inr

end Dealings

/-- **Whatever else is done with a relation works on the manager and the diagram only**, and on the
manager only where it stops. -/
theorem Action.transition_or_spares {i : Relation → Prop} (hi : Lasting i) (h : i r) {α : Type}
    {program : RelationM α} (ha : Action r program) :
    Transition program ∨ Spares i program r fun _ r' => i r' ∨ Rerooted i r' := by
  cases ha with
  | setName name => exact .inl (.setName name)
  | setSignature signature => exact .inl (.setSignature signature)
  | setDomains cat domains => exact .inl (.setDomains cat domains)
  | one cat env => exact .inl (.one cat env)
  | zero cat env => exact .inl (.zero cat env)
  | load cat env files folder => exact .inl (.load cat env files folder)
  | close => exact .inl .close
  | unionWith cat other => exact .inr (spares_editing (spares_unionWith h hi cat other))
  | intersectWith cat other => exact .inr (spares_editing (spares_intersectWith h hi cat other))
  | subtract cat other => exact .inr (spares_editing (spares_subtract h hi cat other))
  | addIndices cat t =>
      exact .inr (spares_editing (spares_addition hi (upholds_checked hi h cat t)))
  | removeIndices cat t =>
      exact .inr (spares_editing (spares_removal hi (upholds_checked hi h cat t)))
  | containsIndices cat t =>
      exact .inr (spares_asking (upholds_test hi (upholds_checked hi h cat t)))
  | add cat values =>
      exact .inr (spares_editing (spares_addition hi (upholds_resolved hi h cat values)))
  | remove cat values =>
      exact .inr (spares_editing (spares_removal hi (upholds_resolved hi h cat values)))
  | contains cat values =>
      exact .inr (spares_asking (upholds_test hi (upholds_resolved hi h cat values)))
  | tuplesOf slots => exact .inr (spares_asking (upholds_tuplesOf hi h slots))
  | selectIndex v hv cat slot index =>
      exact .inr (spares_asking (View.upholds_selectIndex hi h hv cat slot index))
  | select v hv cat slot value =>
      exact .inr (spares_asking (View.upholds_select hi h hv cat slot value))
  | delete v hv slot => exact .inr (spares_asking (View.upholds_delete hi h hv slot))
  | selectAndDelete v hv cat slot value =>
      exact .inr (spares_asking (View.upholds_selectAndDelete hi h hv cat slot value))
  | selectIndexAndDelete v hv cat slot index =>
      exact .inr (spares_asking (View.upholds_selectIndexAndDelete hi h hv cat slot index))
  | viewContains v hv cat indices =>
      exact .inr (spares_asking (View.upholds_containsIndices hi h hv cat indices))

theorem Action.transition_or_upholds {i : Relation → Prop} (hi : Editable i) (h : i r) {α : Type}
    {program : RelationM α} (ha : Action r program) :
    Transition program ∨ Upholds i program r fun _ _ => True :=
  (ha.transition_or_spares hi.toLasting h).imp_right fun hspared =>
    hspared.upholds fun _ _ h' => ⟨h'.elim id hi.of_rerooted, trivial⟩

/-- **Storing closes a relation, if it changes more than the manager.** -/
theorem Storing.spares {i : Relation → Prop} (hi : Lasting i) (h : i r) {α : Type}
    {program : StorageM α} (ha : Storing program) (files : Files) :
    Spares (i ·.1) program (r, files) fun _ s => i s.1 ∨ Shut i s.1 := by
  cases ha with
  | writeTo folder =>
      exact (upholds_writeTo hi h files folder).spares.mono fun _ _ h' => .inl h'.1
  | save folder => exact (spares_save hi h files folder).mono fun _ _ => .inr
  | print cat folder => exact (spares_print hi h files cat folder).mono fun _ _ => .inr

theorem Storing.upholds {i : Relation → Prop} (hi : Lasting i) (h : i r)
    (hclose : ∀ {r' : Relation}, i r' → Upholds i close r' fun _ _ => True) {α : Type}
    {program : StorageM α} (ha : Storing program) (files : Files) :
    Upholds (i ·.1) program (r, files) fun _ _ => True := by
  refine (ha.spares hi h files).upholds fun _ s h' => ⟨h'.elim id fun hshut => ?_, trivial⟩
  obtain ⟨r', schema, c, h', hopen, hs⟩ := hshut
  rw [hs]
  exact ((hclose h').of_ok (close_eq hopen)).1

theorem Transition.upholds (h : r.Sound) {α : Type} {program : RelationM α}
    (ht : Transition program) : Upholds Sound program r fun _ _ => True := by
  cases ht with
  | setName name => exact upholds_setName h name
  | setSignature signature => exact upholds_setSignature h signature
  | setDomains cat domains => exact upholds_setDomains h cat domains
  | one cat env => exact upholds_one h cat env
  | zero cat env => exact (upholds_zero h cat env).mono fun _ _ _ _ => trivial
  | load cat env files folder => exact upholds_load h cat env files folder
  | close => exact upholds_close h

theorem Action.upholds (h : r.Sound) {α : Type} {program : RelationM α} (ha : Action r program) :
    Upholds Sound program r fun _ _ => True :=
  (ha.transition_or_upholds editable_sound h).elim (·.upholds h) id

/-- **Every relation that is reached is sound.** -/
theorem Reached.sound (hr : Reached r) : r.Sound := by
  induction hr with
  | create config => exact trivial
  | act _ ha ih => exact (ha.upholds ih).after
  | store _ files ha ih =>
      exact (ha.upholds editable_sound.toLasting ih (fun h => upholds_close h) files).after

/-- The contents of an open relation that is reached are sound. -/
theorem Reached.contents (hr : Reached r) {schema : Schema} {c : Contents}
    (hopen : r.stage = .opened schema c) : c.Sound schema :=
  (hr.sound.contents hopen).2

/-- A described relation is reached. -/
theorem reached_bound {config : Option Config} {cat : Catalog} {schema : Schema}
    (hname : schema.name.isEmpty = false)
    (harity : schema.domains.length = schema.signature.arity)
    (hkinds : checkKinds schema.name cat 0 (schema.signature.names.zip schema.domains) = .ok ()) :
    Reached ⟨config, .bound schema⟩ := by
  have hset : setName schema.name ⟨config, .nameless⟩ = .ok () ⟨config, .named schema.name⟩ :=
    if_neg (by rw [hname]; exact Bool.false_ne_true)
  have hdomains : setDomains cat schema.domains ⟨config, .signed schema.name schema.signature⟩ =
      .ok () ⟨config, .bound schema⟩ := by
    simp only [setDomains, harity, ne_eq, not_true_eq_false, if_false, hkinds]
  have named := (Reached.create config).act (.setName schema.name)
  rw [Relation.create, after, hset] at named
  have described := (named.act (.setSignature schema.signature)).act
    (.setDomains cat schema.domains)
  rw [after, after] at described
  dsimp only [setSignature] at described
  rwa [hdomains] at described

/-- A reached relation over one slot opens, and takes the second of two values, not a third. -/
theorem reached_single : ∃ cat r r' schema c, Reached r ∧ zero cat [] r = .ok () r' ∧ Reached r' ∧
    r'.stage = .opened schema c ∧ Valid cat schema c.layout [1] ∧
    ¬ Valid cat schema c.layout [2] := by
  let cat : Catalog := ⟨#[.words ⟨"V", fun n => s!"{n}", ⟨#[7, 9], ∅⟩⟩]⟩
  let r : Relation := ⟨some ⟨2, 2, 0.2, false, .native⟩,
    .bound ⟨"vP", ⟨["V0"], none, [[0]]⟩, [0]⟩⟩
  have hr : Reached r := (((Reached.create _).act (.setName "vP")).act
    (.setSignature ⟨["V0"], none, [[0]]⟩)).act (.setDomains cat [0])
  have hpass : (do zero cat []; checked cat [1] : RelationM (List Nat)).run' r = some [1] := by
    decide +kernel
  have hstop : (do zero cat []; checked cat [2] : RelationM (List Nat)).run' r = none := by
    decide +kernel
  obtain ⟨_, run⟩ := ok_of_run' hpass
  obtain ⟨_, r', hzero, hchecked⟩ := run_ok_of_bind run
  have hr' : Reached (after (zero cat []) r) := hr.act (.zero cat [])
  rw [after, hzero] at hr'
  have hpassed := upholds_checked editable_sound.toLasting hr'.sound cat [1]
  obtain ⟨_, schema, c, hopen, hvalid⟩ := (hpassed.of_ok hchecked).2
  refine ⟨cat, r, r', schema, c, hr, hzero, hr', hopen, hvalid, fun hvalid' => ?_⟩
  have hends : Ends (do zero cat []; checked cat [2] : RelationM (List Nat)) r fun _ _ => True :=
    ends_bind hzero ⟨_, _, checked_eq hopen hvalid', trivial⟩
  obtain ⟨_, _, hrun, _⟩ := hends
  exact run'_ne_none hrun hstop

end Factbase.Relation
