import Factbase.Proofs.Relation.Lifecycle

/-!
# Relations by their fields

A relation as a record of fields, each of which is set or not. Nothing ties them together, and which
of them are set at a time is up to the checks that the operations make. A `Stage` is what they say
in the combinations that these checks allow.

* `Fields`, `FieldsM`: the record, and the operations with their checks and assignments;
* `Fields.Ordered`: name, signature and domains are set in this order, contents behind them, and
  none are left where the relation is closed;
* `Named.stage_fields`, `Fields.Ordered.fields_stage`: **ordered fields and stages stand for each
  other**;
* `Mirrors`, `Mirrors.bind`: an operation on the fields does what one on the relation does, with the
  same answers and refusals; `mirrors_setName`, …, `mirrors_update`: the operations;
* `Assignment`, `assign`: what can be requested of the fields, over and over;
* `Fields.Step`, `Fields.step_cases`: what an assignment does that is answered;
* `assign_lifecycle`: **the life cycle of the fields**, by their checks alone;
* `serve_fields`: **requests assign to the fields of a relation.**
-/

namespace Factbase.Relation

open Diagram

/-! ## 1. Fields -/

/-- The fields of a relation. -/
structure Fields where
  /-- Empty while it is not set. -/
  name : String
  signature : Option Signature
  domains : Option (List Nat)
  opened : Option Contents
  closed : Bool

/-- A program over the fields of a relation. -/
abbrev FieldsM := EStateM Failure Fields

namespace Fields

/-- The fields of a new relation. -/
def blank : Fields := ⟨"", none, none, none, false⟩

def state (f : Fields) : State :=
  if f.closed then .closed
  else if f.opened.isSome then .opened
  else if f.domains.isSome then .bound
  else .unbound

def setName (name : String) : FieldsM Unit := fun f =>
  if ¬ f.name.isEmpty then .error (.fault (.nameAlreadySet f.name)) f
  else if name.isEmpty then .error (.fault .nameEmpty) f
  else .ok () { f with name }

def setSignature (signature : Signature) : FieldsM Unit := fun f =>
  if f.name.isEmpty then .error (.fault .signatureBeforeName) f
  else if f.signature.isSome then .error (.fault (.signatureAlreadySet f.name)) f
  else .ok () { f with signature := some signature }

def setDomains (cat : Catalog) (domains : List Nat) : FieldsM Unit := fun f =>
  match f.signature with
  | none => .error (.fault (.domainsBeforeSignature f.name)) f
  | some signature =>
    if f.domains.isSome then .error (.fault (.domainsAlreadySet f.name)) f
    else if domains.length ≠ signature.arity then
      .error (.fault (.domainCount f.name signature.arity domains.length)) f
    else
      match checkKinds f.name cat 0 (signature.names.zip domains) with
      | .error fault => .error (.fault fault) f
      | .ok () => .ok () { f with domains := some domains }

/-- Open with given contents. -/
def openWith (contents : Contents) : FieldsM Unit := fun f =>
  match f.state, f.signature, f.domains with
  | .bound, some _, some _ => .ok () { f with opened := some contents }
  | state, _, _ => .error (.fault (.notOpenable f.name state)) f

/-- What an open relation is made of, its manager apart. -/
def opening : FieldsM (Schema × Edge × Layout) := fun f =>
  match f.opened with
  | some c => .ok (⟨f.name, f.signature.getD default, f.domains.getD []⟩, c.root, c.layout) f
  | none => .error (.fault (.notOpen f.name f.state)) f

/-- Run a program on the manager of an open relation. -/
def onManager {α : Type} (act : Edge → Layout → Op α) : FieldsM α := fun f =>
  match f.opened with
  | some ⟨manager, root, layout⟩ =>
    match act root layout manager with
    | .ok a manager => .ok a { f with opened := some ⟨manager, root, layout⟩ }
    | .error fault manager =>
      .error (.fault fault) { f with opened := some ⟨manager, root, layout⟩ }
  | none => .error (.fault (.notOpen f.name f.state)) f

/-- Replace the contents of an open relation. -/
def setContents (contents : Contents) : FieldsM Unit := fun f =>
  match f.opened with
  | some _ => .ok () { f with opened := some contents }
  | none => .error (.fault (.notOpen f.name f.state)) f

/-- Replace the diagram of an open relation. -/
def setRoot (root : Edge) : FieldsM Unit := fun f =>
  match f.opened with
  | some c => .ok () { f with opened := some { c with root } }
  | none => .error (.fault (.notOpen f.name f.state)) f

/-- Give the manager up. -/
def close : FieldsM Unit := fun f =>
  match f.opened with
  | some _ => .ok () { f with opened := none, closed := true }
  | none => .error (.fault (.notClosable f.name f.state)) f

/-- What is set behind what. -/
structure Ordered (f : Fields) : Prop where
  named : f.signature.isSome → f.name ≠ ""
  signed : f.domains.isSome → f.signature.isSome
  described : f.opened.isSome ∨ f.closed → f.domains.isSome
  released : f.closed → f.opened = none

end Fields

/-! ## 2. Stages -/

/-- The fields of a relation at a point of its life. -/
def Stage.fields : Stage → Fields
  | .nameless => .blank
  | .named name => ⟨name, none, none, none, false⟩
  | .signed name signature => ⟨name, some signature, none, none, false⟩
  | .bound s => ⟨s.name, some s.signature, some s.domains, none, false⟩
  | .opened s c => ⟨s.name, some s.signature, some s.domains, some c, false⟩
  | .closed s => ⟨s.name, some s.signature, some s.domains, none, true⟩

/-- The stage of a relation with given fields. -/
def Fields.stage (f : Fields) : Stage :=
  match f.signature, f.domains with
  | none, _ => if f.name.isEmpty then .nameless else .named f.name
  | some signature, none => .signed f.name signature
  | some signature, some domains =>
    match f.opened with
    | some c => .opened ⟨f.name, signature, domains⟩ c
    | none => if f.closed then .closed ⟨f.name, signature, domains⟩
        else .bound ⟨f.name, signature, domains⟩

section Stages

variable {r : Relation}

theorem fields_name : r.stage.fields.name = r.name := by
  unfold name
  cases r.stage <;> rfl

theorem fields_signature : r.stage.fields.signature = r.signature? := by
  unfold signature? schema?
  cases r.stage <;> rfl

theorem fields_domains : r.stage.fields.domains = r.domains? := by
  unfold domains? schema?
  cases r.stage <;> rfl

theorem fields_state : r.stage.fields.state = r.state := by
  unfold state
  cases r.stage <;> rfl

/-- The fields of a relation are set in order. -/
theorem Named.ordered (h : Named r) : r.stage.fields.Ordered := by
  have hname := h.name_ne
  rw [← fields_signature, ← fields_name] at hname
  refine ⟨hname, ?_, ?_, ?_⟩ <;> cases r.stage <;> simp [Stage.fields, Fields.blank]

/-- **The fields tell the stage.** -/
theorem Named.stage_fields (h : Named r) : r.stage.fields.stage = r.stage := by
  unfold Named name at h
  cases hstage : r.stage with
  | named name =>
      rw [hstage] at h
      have hname : name ≠ "" := h Stage.noConfusion
      simp [Stage.fields, Fields.stage, hname]
  | _ => rfl

end Stages

/-- **Fields that are set in order are those of a stage.** -/
theorem Fields.Ordered.fields_stage {f : Fields} (h : f.Ordered) : f.stage.fields = f := by
  obtain ⟨name, signature, domains, opened, closed⟩ := f
  obtain ⟨-, hsigned, hdescribed, hreleased⟩ := h
  cases signature with
  | none =>
      obtain rfl : domains = none := by simpa using hsigned
      obtain ⟨rfl, rfl⟩ : opened = none ∧ closed = false := by simpa using hdescribed
      by_cases hname : name = "" <;> simp [Fields.stage, Stage.fields, Fields.blank, hname]
  | some signature =>
      cases domains with
      | none =>
          obtain ⟨rfl, rfl⟩ : opened = none ∧ closed = false := by simpa using hdescribed
          rfl
      | some domains =>
          cases opened with
          | none => cases closed <;> rfl
          | some c =>
              obtain rfl : closed = false := by simpa using hreleased
              rfl

/-! ## 3. Operations -/

/-- The operation on the fields does what the one on the relation does. -/
def Mirrors {α : Type} (act' : FieldsM α) (act : RelationM α) (r : Relation) : Prop :=
  act' r.stage.fields =
    match act r with
    | .ok a r' => .ok a r'.stage.fields
    | .error e r' => .error e r'.stage.fields

section Mirrors

variable {r : Relation} {α β : Type}

/-- **One operation behind another.** -/
theorem Mirrors.bind {act' : FieldsM α} {act : RelationM α} {next' : α → FieldsM β}
    {next : α → RelationM β} (h : Mirrors act' act r)
    (hnext : ∀ a r', act r = .ok a r' → Mirrors (next' a) (next a) r') :
    Mirrors (act' >>= next') (act >>= next) r := by
  unfold Mirrors at h ⊢
  cases run : act r with
  | ok a r' =>
      rw [run] at h
      rw [bind_of_ok run, bind_of_ok h]
      exact hnext a r' run
  | error e r' =>
      rw [run] at h
      rw [bind_eq_error run, bind_eq_error h]

theorem mirrors_setName (h : Named r) (name : String) :
    Mirrors (Fields.setName name) (setName name) r := by
  obtain ⟨config, stage⟩ := r
  cases stage with
  | nameless =>
      unfold Mirrors Fields.setName setName
      by_cases hname : name.isEmpty <;> simp [Stage.fields, Fields.blank, hname]
  | _ =>
      have hset := h Stage.noConfusion
      rw [← fields_name] at hset
      exact if_pos (by simpa using hset)

theorem mirrors_setSignature (h : Named r) (signature : Signature) :
    Mirrors (Fields.setSignature signature) (setSignature signature) r := by
  obtain ⟨config, stage⟩ := r
  cases stage with
  | nameless => rfl
  | _ =>
      have hset := h Stage.noConfusion
      rw [← fields_name] at hset
      exact if_neg (by simpa using hset)

theorem mirrors_setDomains (cat : Catalog) (domains : List Nat) :
    Mirrors (Fields.setDomains cat domains) (setDomains cat domains) r := by
  obtain ⟨config, stage⟩ := r
  cases stage with
  | signed name signature =>
      unfold Mirrors Fields.setDomains setDomains
      dsimp only [Stage.fields]
      by_cases hlen : domains.length ≠ signature.arity
      · simp [hlen]
      · cases hkinds : checkKinds name cat 0 (signature.names.zip domains) <;> simp [hlen]
  | _ => rfl

theorem mirrors_opening : Mirrors Fields.opening opening r := by
  obtain ⟨config, stage⟩ := r
  cases stage <;> rfl

theorem mirrors_onManager (act : Edge → Layout → Op α) :
    Mirrors (Fields.onManager act) (onManager act) r := by
  obtain ⟨config, stage⟩ := r
  cases stage with
  | opened schema c =>
      unfold Mirrors Fields.onManager onManager
      dsimp only [Stage.fields]
      cases act c.root c.layout c.manager <;> rfl
  | _ => rfl

theorem mirrors_setRoot (root : Edge) : Mirrors (Fields.setRoot root) (setRoot root) r := by
  obtain ⟨config, stage⟩ := r
  cases stage <;> rfl

theorem mirrors_close : Mirrors Fields.close close r := by
  obtain ⟨config, stage⟩ := r
  cases stage <;> rfl

/-- **A relation that is not bound is not opened**, for the same reason. -/
theorem openWith_refused (hbound : r.state ≠ .bound) (cat : Catalog) (env : Environment)
    (c : Contents) : ∃ fault, r.prepare cat env = .error fault ∧
      Fields.openWith c r.stage.fields = .error (.fault fault) r.stage.fields := by
  obtain ⟨config, stage⟩ := r
  cases stage with
  | bound schema => exact absurd rfl hbound
  | _ => exact ⟨_, rfl, rfl⟩

/-- **A relation is described at once by one assignment behind another.** -/
theorem mirrors_bind (h : Named r) (cat : Catalog) (name : String) (signature : Signature)
    (domains : List Nat) :
    Mirrors (do
      Fields.setName name
      Fields.setSignature signature
      Fields.setDomains cat domains) (Relation.bind cat name signature domains) r := by
  refine (mirrors_setName h name).bind fun _ r' run => ?_
  have h' : Named r' := by
    rcases setName_outcome (r := r) name with ⟨_, refused⟩ | ⟨_, hname, named⟩
    · cases run.symm.trans refused
    · cases run.symm.trans named
      exact fun _ => hname
  exact (mirrors_setSignature h' signature).bind fun _ _ _ => mirrors_setDomains cat domains

/-- **Changes of the contents are those of one field.** -/
theorem mirrors_update (act : Edge → Layout → Op Edge) :
    Mirrors (Fields.onManager act >>= Fields.setRoot) (update act) r :=
  (mirrors_onManager act).bind fun root _ _ => mirrors_setRoot root

end Mirrors

/-! ## 4. Assignments -/

/-- What can be requested of the fields. -/
inductive Assignment where
  | naming (name : String)
  | signing (signature : Signature)
  | binding (cat : Catalog) (domains : List Nat)
  | opening (contents : Contents)
  | changing (contents : Contents)
  | closing

def Assignment.run : Assignment → FieldsM Unit
  | .naming name => Fields.setName name
  | .signing signature => Fields.setSignature signature
  | .binding cat domains => Fields.setDomains cat domains
  | .opening contents => Fields.openWith contents
  | .changing contents => Fields.setContents contents
  | .closing => Fields.close

/-- The fields behind assignments, answered and refused ones. -/
def assign (assignments : List Assignment) (f : Fields) : Fields :=
  assignments.foldl (fun f assignment => after assignment.run f) f

namespace Fields

/-- What an assignment makes of the fields that is answered. -/
inductive Step (f : Fields) : Fields → Prop
  | naming {name : String} (hunset : f.name = "") (hname : name ≠ "") : Step f { f with name }
  | signing {signature : Signature} (hname : f.name ≠ "") (hunset : f.signature = none) :
      Step f { f with signature := some signature }
  | binding {domains : List Nat} (hsignature : f.signature.isSome) (hunset : f.domains = none) :
      Step f { f with domains := some domains }
  | opening {c : Contents} (hbound : f.state = .bound) : Step f { f with opened := some c }
  | changing {c : Contents} (hopened : f.opened.isSome) : Step f { f with opened := some c }
  | closing (hopened : f.opened.isSome) : Step f { f with opened := none, closed := true }

variable {f : Fields}

/-- **An assignment is answered where its checks pass, and changes nothing where they do not.** -/
theorem step_cases (f : Fields) (assignment : Assignment) :
    (∃ e, assignment.run f = .error e f) ∨ ∃ f', assignment.run f = .ok () f' ∧ f.Step f' := by
  -- The checks come in the order of the program, and only the last way out is answered.
  cases assignment with
  | naming name =>
      simp only [Assignment.run, setName]
      split
      · exact .inl ⟨_, rfl⟩
      next hunset =>
        split
        · exact .inl ⟨_, rfl⟩
        next hname => exact .inr ⟨_, rfl, .naming (by simpa using hunset) (by simpa using hname)⟩
  | signing signature =>
      simp only [Assignment.run, setSignature]
      split
      · exact .inl ⟨_, rfl⟩
      next hname =>
        split
        · exact .inl ⟨_, rfl⟩
        next hunset =>
          exact .inr ⟨_, rfl, .signing (by simpa using hname) (by simpa using hunset)⟩
  | binding cat domains =>
      simp only [Assignment.run, setDomains]
      split
      · exact .inl ⟨_, rfl⟩
      next hsignature =>
        split
        · exact .inl ⟨_, rfl⟩
        next hunset =>
          split
          · exact .inl ⟨_, rfl⟩
          · split
            · exact .inl ⟨_, rfl⟩
            · exact .inr ⟨_, rfl, .binding (by simp [hsignature]) (by simpa using hunset)⟩
  | opening c =>
      simp only [Assignment.run, openWith]
      split
      next hbound _ _ => exact .inr ⟨_, rfl, .opening hbound⟩
      · exact .inl ⟨_, rfl⟩
  | changing c =>
      simp only [Assignment.run, setContents]
      split
      next hopened => exact .inr ⟨_, rfl, .changing (by simp [hopened])⟩
      · exact .inl ⟨_, rfl⟩
  | closing =>
      simp only [Assignment.run, close]
      split
      next hopened => exact .inr ⟨_, rfl, .closing (by simp [hopened])⟩
      · exact .inl ⟨_, rfl⟩

theorem state_eq_bound_iff :
    f.state = .bound ↔ f.closed = false ∧ f.opened = none ∧ f.domains.isSome := by
  unfold state
  cases f.closed <;> cases f.opened <;> cases f.domains <;> simp

theorem Ordered.state_eq_opened_iff (h : f.Ordered) : f.state = .opened ↔ f.opened.isSome := by
  obtain ⟨-, -, -, hreleased⟩ := h
  unfold state
  cases hclosed : f.closed with
  | true => simp [hreleased hclosed]
  | false => cases f.opened <;> cases f.domains <;> simp

theorem state_eq_closed_iff : f.state = .closed ↔ f.closed := by
  unfold state
  cases f.closed <;> cases f.opened <;> cases f.domains <;> simp

/-- What is set is set to the same later. -/
structure Retains (f f' : Fields) : Prop where
  name : f.name ≠ "" → f'.name = f.name
  signature : ∀ signature, f.signature = some signature → f'.signature = some signature
  domains : ∀ domains, f.domains = some domains → f'.domains = some domains

namespace Step

variable {f' : Fields} (h : f.Step f')

include h

/-- **A step sets nothing out of order.** -/
theorem ordered (hf : f.Ordered) : f'.Ordered := by
  obtain ⟨hnamed, hsigned, hdescribed, hreleased⟩ := hf
  cases h with
  | naming _ hname => exact ⟨fun _ => hname, hsigned, hdescribed, hreleased⟩
  | signing hname _ => exact ⟨fun _ => hname, fun _ => rfl, hdescribed, hreleased⟩
  | binding hsignature _ => exact ⟨hnamed, fun _ => hsignature, fun _ => rfl, hreleased⟩
  | opening hbound =>
      obtain ⟨hclosed, -, hdomains⟩ := state_eq_bound_iff.mp hbound
      exact ⟨hnamed, hsigned, fun _ => hdomains, fun h => by cases hclosed.symm.trans h⟩
  | changing hopened =>
      refine ⟨hnamed, hsigned, fun _ => hdescribed (.inl hopened), fun hclosed => ?_⟩
      rw [hreleased hclosed] at hopened
      cases hopened
  | closing hopened => exact ⟨hnamed, hsigned, fun _ => hdescribed (.inl hopened), fun _ => rfl⟩

/-- **A step sets nothing twice.** -/
theorem retains : f.Retains f' := by
  cases h with
  | naming hunset _ => exact ⟨fun h => absurd hunset h, fun _ => id, fun _ => id⟩
  | signing _ hunset =>
      exact ⟨fun _ => rfl, fun _ h => (by cases hunset.symm.trans h), fun _ => id⟩
  | binding _ hunset =>
      exact ⟨fun _ => rfl, fun _ => id, fun _ h => (by cases hunset.symm.trans h)⟩
  | _ => exact ⟨fun _ => rfl, fun _ => id, fun _ => id⟩

/-- **A step leaves the state or goes on to the next one.** -/
theorem state_or_next (hf : f.Ordered) : f'.state = f.state ∨ f.state.next? = some f'.state := by
  have hf' := h.ordered hf
  cases h with
  | naming _ _ | signing _ _ => exact .inl rfl
  | binding _ hunset =>
      have hblank : ¬ (f.opened.isSome ∨ f.closed) := fun h => by
        simpa [hunset] using hf.described h
      obtain ⟨hopened, hclosed⟩ : f.opened = none ∧ f.closed = false := by simpa using hblank
      exact .inr (by simp [Fields.state, hopened, hclosed, hunset, State.next?])
  | opening hbound => exact .inr (by rw [hbound, hf'.state_eq_opened_iff.mpr rfl]; rfl)
  | changing hopened =>
      exact .inl ((hf'.state_eq_opened_iff.mpr rfl).trans (hf.state_eq_opened_iff.mpr hopened).symm)
  | closing hopened =>
      exact .inr (by rw [hf.state_eq_opened_iff.mpr hopened, state_eq_closed_iff.mpr rfl]; rfl)

end Step

end Fields

section Assigning

variable {f : Fields}

theorem assign_cons (assignment : Assignment) (assignments : List Assignment) (f : Fields) :
    assign (assignment :: assignments) f = assign assignments (after assignment.run f) := rfl

/-- **A step rule for assignments**: what holds of ordered fields and is kept by every step holds
behind all of them. -/
theorem assign_induction {p : Fields → Prop} (hf : f.Ordered) (h : p f)
    (keep : ∀ {f f' : Fields}, f.Ordered → f.Step f' → p f → p f')
    (assignments : List Assignment) :
    (assign assignments f).Ordered ∧ p (assign assignments f) := by
  induction assignments generalizing f with
  | nil => exact ⟨hf, h⟩
  | cons assignment assignments ih =>
      rcases f.step_cases assignment with ⟨e, run⟩ | ⟨f', run, hstep⟩
      · simp only [assign_cons, after, run]
        exact ih hf h
      · simp only [assign_cons, after, run]
        exact ih (hstep.ordered hf) (keep hf hstep h)

theorem ordered_blank : Fields.blank.Ordered := by
  constructor <;> simp [Fields.blank]

theorem ordered_assign (assignments : List Assignment) : (assign assignments .blank).Ordered :=
  (assign_induction (p := fun _ => True) ordered_blank trivial (fun _ _ _ => trivial)
    assignments).1

theorem retains_assign (hf : f.Ordered) (assignments : List Assignment) :
    f.Retains (assign assignments f) := by
  refine (assign_induction hf ⟨fun _ => rfl, fun _ => id, fun _ => id⟩
    (fun {g g'} _ hstep (h : f.Retains g) => ?_) assignments).2
  have h' := hstep.retains
  refine ⟨fun hname => ?_, fun s hs => h'.signature s (h.signature s hs),
    fun ds hds => h'.domains ds (h.domains ds hds)⟩
  rw [h'.name (by rwa [h.name hname]), h.name hname]

end Assigning

/-! ## 5. Main results -/

/-- **The life cycle of the fields.** Whatever was assigned to the fields of a relation since it was
new, in whatever order, they are set in order and each once and for good. With every assignment the
state stays or goes on to the next one, contents are there while it is open, and an assignment that
is refused changes nothing. -/
theorem assign_lifecycle (assignments more : List Assignment) (assignment : Assignment) :
    let f := assign assignments .blank
    let next := after assignment.run f
    f.Ordered ∧ f.Retains (assign more f) ∧
    (next.state = f.state ∨ f.state.next? = some next.state) ∧
    (f.state = .opened ↔ f.opened.isSome) ∧ (f.state = .closed ↔ f.closed) ∧
    ∀ e, answer assignment.run f = .error e → next = f := by
  intro f next
  have hf : f.Ordered := ordered_assign assignments
  refine ⟨hf, retains_assign hf more, ?_, hf.state_eq_opened_iff, Fields.state_eq_closed_iff, ?_⟩
  · rcases f.step_cases assignment with ⟨e, run⟩ | ⟨f', run, hstep⟩
    · exact .inl (by simp only [next, after, run])
    · simpa only [next, after, run] using hstep.state_or_next hf
  · intro e herror
    rcases f.step_cases assignment with ⟨e, run⟩ | ⟨f', run, hstep⟩
    · simp only [next, after, run]
    · rw [answer, run] at herror
      cases herror

section Requests

variable {r r' : Relation}

theorem Mirrors.after_eq {act' : FieldsM Unit} {act : RelationM Unit} (h : Mirrors act' act r) :
    after act' r.stage.fields = (after act r).stage.fields := by
  unfold Mirrors at h
  unfold after
  rw [h]
  cases act r <;> rfl

theorem Steady.exists_assignments (h : Steady r r') :
    ∃ assignments, r'.stage.fields = assign assignments r.stage.fields := by
  cases h with
  | same h => exact ⟨[], by rw [h]; rfl⟩
  | @opened _ _ c' hr hr' => exact ⟨[.changing c'], by rw [hr, hr']; rfl⟩

/-- **A request makes at most one assignment.** -/
theorem Request.exists_assignments (hs : r.Sound) (hnamed : Named r) (request : Request) :
    ∃ assignments, (after request.run r).stage.fields = assign assignments r.stage.fields := by
  cases request with
  | setName name => exact ⟨[.naming name], (mirrors_setName hnamed name).after_eq.symm⟩
  | setSignature signature =>
      exact ⟨[.signing signature], (mirrors_setSignature hnamed signature).after_eq.symm⟩
  | setDomains cat domains =>
      exact ⟨[.binding cat domains], (mirrors_setDomains cat domains).after_eq.symm⟩
  | close => exact ⟨[.closing], mirrors_close.after_eq.symm⟩
  | _ =>
      rcases (Request.outcome hs _).2 with ⟨_, hadvance⟩ | ⟨_, hundisturbed⟩
      · cases hadvance with
        | @opening _ _ c _ hr hr' => exact ⟨[.opening c], by rw [hr, hr']; rfl⟩
        | closing _ hr hr' => exact ⟨[.closing], by rw [hr, hr']; rfl⟩
        | staying _ h => exact h.exists_assignments
      · exact hundisturbed.steady.exists_assignments

end Requests

/-- **Requests assign to the fields of a relation.** What a relation has become by requests is what
its fields have become by assignments, so they tell its stage. -/
theorem serve_fields (config : Option Config) (requests : List Request) :
    let r := serve requests (create config)
    (∃ assignments, r.stage.fields = assign assignments .blank) ∧ r.stage.fields.Ordered ∧
      r.stage.fields.stage = r.stage := by
  have hnamed := named_serve config requests
  refine ⟨?_, hnamed.ordered, hnamed.stage_fields⟩
  induction requests using List.reverseRecOn with
  | nil => exact ⟨[], rfl⟩
  | append_singleton requests request ih =>
      obtain ⟨assignments, hbefore⟩ := ih (named_serve config requests)
      obtain ⟨more, hnext⟩ := request.exists_assignments (sound_serve config requests)
        (named_serve config requests)
      refine ⟨assignments ++ more, ?_⟩
      rw [serve_concat, hnext, hbefore]
      exact List.foldl_append.symm

end Factbase.Relation
