import Factbase.Proofs.Relation.Interleaving

/-!
# Life cycles

A relation is described, opened and closed, each in its time and each once, whatever is requested of
it in whatever order, and whether it is answered or refused.

* `Request`: what may be requested of a relation, `Request.effect`: what that is meant to do;
* `Advance`: what a request does that is answered;
* `Request.spares`: **requests that are answered do that, and those that are refused leave the
  relation undisturbed**;
* `Unchanged`, `Undisturbed.unchanged`: what can be seen of a relation that is undisturbed;
* `serve_induction`: what every request keeps is kept by all of them;
* `Extends`, `Named`, `exists_opened_of_closed`, `bound_iff`: **what a relation was tells what it
  can be**;
* `serve_lifecycle`: **the life cycle of every relation.**
-/

namespace Factbase.Relation

open Diagram

/-! ## 1. Requests -/

/-- An operation on the tuples of a relation. -/
inductive TupleOperation where
  | add (tuple : List Value)
  | remove (tuple : List Value)
  | addIndices (t : List Nat)
  | removeIndices (t : List Nat)
  | combine (operation : SetOperation) (other : Relation)
  | ask (question : Question)
  | tuples
  | tuplesOf (slots : List Nat)
  | nextTuple (cursor : Cursor)
  | takeTuples (cursor : Cursor) (limit : Option Nat)
  | values (types : List ElementType) (limit : Option Nat)

/-- Do the operation and forget its answer. -/
def TupleOperation.run (cat : Catalog) : TupleOperation → RelationM Unit
  | .add tuple => Relation.add cat tuple
  | .remove tuple => Relation.remove cat tuple
  | .addIndices t => Relation.addIndices cat t
  | .removeIndices t => Relation.removeIndices cat t
  | .combine operation other => operation.run cat other
  | .ask question => question.run cat
  | .tuples => do let _ ← Relation.tuples
  | .tuplesOf slots => do let _ ← Relation.tuplesOf slots
  | .nextTuple cursor => do let _ ← Relation.nextTuple cursor
  | .takeTuples cursor limit => do let _ ← Relation.takeTuples cursor limit
  | .values types limit => do let _ ← Relation.values cat types limit

/-- What may be requested of a relation, with the domains, the environment and the files as they are
then. -/
inductive Request where
  | setName (name : String)
  | setSignature (signature : Signature)
  | setDomains (cat : Catalog) (domains : List Nat)
  | one (cat : Catalog) (env : Environment)
  | zero (cat : Catalog) (env : Environment)
  | load (cat : Catalog) (env : Environment) (files : Files) (folder : Path)
  | writeTo (files : Files) (folder : Path)
  | save (files : Files) (folder : Path)
  | print (files : Files) (cat : Catalog) (folder : Path)
  | close
  | operate (cat : Catalog) (operation : TupleOperation)

/-- Run a program over the relation and the files, and forget what it did to these. -/
def withFiles (files : Files) (act : StorageM Unit) : RelationM Unit := fun r =>
  match act (r, files) with
  | .ok () s => .ok () s.1
  | .error e s => .error e s.1

/-- The program of a request. The refusal that `load` answers with is one like all others. -/
def Request.run : Request → RelationM Unit
  | .setName name => Relation.setName name
  | .setSignature signature => Relation.setSignature signature
  | .setDomains cat domains => Relation.setDomains cat domains
  | .one cat env => Relation.one cat env
  | .zero cat env => Relation.zero cat env
  | .load cat env files folder => do
      match (← Relation.load cat env files folder).value with
      | .ok () => return ()
      | .error e => throw (.error e)
  | .writeTo files folder => withFiles files (Relation.writeTo folder)
  | .save files folder => withFiles files (Relation.save folder)
  | .print files cat folder => withFiles files (Relation.print cat folder)
  | .close => Relation.close
  | .operate cat operation => operation.run cat

/-- What a request is meant to do. -/
inductive Effect where
  | describes
  | opens
  | closes
  | stays
deriving DecidableEq

def Request.effect : Request → Effect
  | .setName _ | .setSignature _ | .setDomains _ _ => .describes
  | .one _ _ | .zero _ _ | .load _ _ _ _ => .opens
  | .save _ _ | .print _ _ _ | .close => .closes
  | .writeTo _ _ | .operate _ _ => .stays

/-- The relation behind requests, answered and refused ones. -/
def serve (requests : List Request) (r : Relation) : Relation :=
  requests.foldl (fun r request => after request.run r) r

/-- The handles of the domains, where they are set. -/
def domains? (r : Relation) : Option (List Nat) := r.schema?.map (·.domains)

/-- The state behind a state. -/
def State.next? : State → Option State
  | .unbound => some .bound
  | .bound => some .opened
  | .opened => some .closed
  | .closed => none

/-! ## 2. One request -/

/-- The relation is the same, apart from its contents where it is open. -/
inductive Steady (r r' : Relation) : Prop
  | same (h : r' = r)
  | opened {schema : Schema} {c c' : Contents} (hr : r.stage = .opened schema c)
      (hr' : r'.stage = .opened schema c')

/-- What a request makes of a relation that answers it. -/
inductive Advance (r r' : Relation) : Request → Prop
  | naming {name : String} (hname : name ≠ "") (hr : r.stage = .nameless)
      (hr' : r'.stage = .named name) : Advance r r' (.setName name)
  | signing {name : String} {signature : Signature} (hr : r.stage = .named name)
      (hr' : r'.stage = .signed name signature) : Advance r r' (.setSignature signature)
  | binding {cat : Catalog} {name : String} {signature : Signature} {domains : List Nat}
      (hr : r.stage = .signed name signature)
      (hr' : r'.stage = .bound ⟨name, signature, domains⟩) :
      Advance r r' (.setDomains cat domains)
  | opening {request : Request} {schema : Schema} {c : Contents} (heffect : request.effect = .opens)
      (hr : r.stage = .bound schema) (hr' : r'.stage = .opened schema c) : Advance r r' request
  | closing {request : Request} {schema : Schema} {c : Contents}
      (heffect : request.effect = .closes) (hr : r.stage = .opened schema c)
      (hr' : r'.stage = .closed schema) : Advance r r' request
  | staying {request : Request} (heffect : request.effect = .stays) (h : Steady r r') :
      Advance r r' request

section Spares

variable {r r' : Relation}

theorem Undisturbed.steady (h : Undisturbed r r') : Steady r r' := by
  obtain rfl | ⟨schema, c, hopen, m, _, rfl, _⟩ := h
  · exact .same rfl
  · exact .opened hopen rfl

/-- An open relation has been opened with the same description. -/
theorem Undisturbed.exists_opened (h : Undisturbed r r') {schema : Schema} {c : Contents}
    (hopen : r'.stage = .opened schema c) : ∃ c₀, r.stage = .opened schema c₀ := by
  obtain rfl | ⟨schema', c', hopen', m, _, rfl, _⟩ := h
  · exact ⟨c, hopen⟩
  · obtain ⟨rfl, _⟩ := Stage.opened.inj hopen
    exact ⟨c', hopen'⟩

theorem steady_of_intact_or_rerooted (h : Intact r r' ∨ Rerooted (Intact r) r') :
    r'.Sound ∧ Steady r r' := by
  rcases h with h | ⟨r₁, schema, c, root, h₁, hopen, hroot, rfl⟩
  · exact ⟨h.1, h.2.steady⟩
  · obtain ⟨c₀, hopen₀⟩ := h₁.2.exists_opened hopen
    exact ⟨editable_sound.rerooted h₁.1 hopen hroot, .opened hopen₀ rfl⟩

theorem upholds_values {i : Relation → Prop} (hi : Lasting i) (h : i r) (cat : Catalog)
    (types : List ElementType) (limit : Option Nat) :
    Upholds i (values cat types limit) r fun _ _ => True := by
  refine (upholds_opening hi h).bind fun _ _ h₁ _ => ?_
  refine (upholds_orProblem h₁).bind fun _ _ h₂ _ => ?_
  refine (upholds_question hi h₂ _).bind fun _ _ h₃ _ => ?_
  exact (upholds_question hi h₃ _).bind fun _ _ h₄ _ => upholds_pure h₄ trivial

variable (hs : r.Sound)

include hs

/-- **Operations on tuples leave a relation open, and undisturbed where they are refused.** -/
theorem TupleOperation.spares (cat : Catalog) (operation : TupleOperation) :
    Spares (Intact r) (operation.run cat) r fun _ r' => r'.Sound ∧ Steady r r' := by
  have hi := lasting_intact r
  have h := intact_self hs
  -- Only an operation that is answered may have replaced the diagram.
  suffices hspared : Spares (Intact r) (operation.run cat) r fun _ r' =>
      Intact r r' ∨ Rerooted (Intact r) r' from
    hspared.mono fun _ _ => steady_of_intact_or_rerooted
  cases operation with
  | add tuple => exact spares_editing (spares_addition hi (upholds_resolved hi h cat tuple))
  | remove tuple => exact spares_editing (spares_removal hi (upholds_resolved hi h cat tuple))
  | addIndices t => exact spares_editing (spares_addition hi (upholds_checked hi h cat t))
  | removeIndices t => exact spares_editing (spares_removal hi (upholds_checked hi h cat t))
  | combine operation other =>
      cases operation with
      | union => exact spares_editing (spares_unionWith h hi cat other)
      | intersect => exact spares_editing (spares_intersectWith h hi cat other)
      | subtract => exact spares_editing (spares_subtract h hi cat other)
  | ask question => exact spares_asking (question.upholds hi h cat)
  | tuples => exact spares_asking (upholds_question hi h _).forget
  | tuplesOf slots => exact spares_asking (upholds_tuplesOf hi h slots).forget
  | nextTuple cursor => exact spares_asking (upholds_question hi h _).forget
  | takeTuples cursor limit => exact spares_asking (upholds_question hi h _).forget
  | values types limit => exact spares_asking (upholds_values hi h cat types limit).forget

end Spares

section Requests

variable {r r' : Relation} {request : Request}

/-- A program over the relation and the files does the same to the relation alone. -/
theorem spares_withFiles {i : Relation → Prop} {files : Files} {act : StorageM Unit}
    {post : Relation → Prop} (h : Spares (i ·.1) act (r, files) fun _ s => post s.1) :
    Spares i (withFiles files act) r fun _ r' => post r' := by
  cases run : act (r, files) with
  | ok a s =>
      have hrun : withFiles files act r = .ok a s.1 := by simp only [withFiles, run]
      exact spares_of_ok hrun (h.of_ok run)
  | error e s =>
      have hrun : withFiles files act r = .error e s.1 := by simp only [withFiles, run]
      exact spares_of_error hrun (h.of_error run)

theorem advance_of_shut (heffect : request.effect = .closes) (h : Shut (Intact r) r') :
    r'.Sound ∧ Advance r r' request := by
  obtain ⟨r₁, schema, c, h₁, hopen, rfl⟩ := h
  obtain ⟨c₀, hopen₀⟩ := h₁.2.exists_opened hopen
  exact ⟨(h₁.1.contents hopen).1, .closing heffect hopen₀ rfl⟩

variable (hs : r.Sound)

include hs

theorem spares_opening {cat : Catalog} {env : Environment} {act : Layout → Op Edge}
    {post : Unit → Relation → Prop} (heffect : request.effect = .opens)
    (hsound : Upholds Sound (openAs cat env act) r post) :
    Spares (Intact r) (openAs cat env act) r fun _ r' => r'.Sound ∧ Advance r r' request := by
  rcases openAs_outcome (r := r) cat env act with ⟨_, run⟩ | ⟨p, root, m, hp, _, run⟩
  · exact spares_of_error run (intact_self hs)
  · exact spares_of_ok run ⟨(hsound.of_ok run).1, .opening heffect (sound_prepare hp).1 rfl⟩

/-- **A request that is answered does what it is meant to, and one that is refused leaves the
relation undisturbed.** -/
theorem Request.spares (request : Request) : Spares (Intact r) request.run r fun _ r' =>
    r'.Sound ∧ Advance r r' request := by
  have hi := lasting_intact r
  have h := intact_self hs
  cases request with
  | setName name =>
      rcases setName_outcome (r := r) name with ⟨_, run⟩ | ⟨hr, hname, run⟩
      · exact spares_of_error run h
      · exact spares_of_ok run ⟨trivial, .naming hname hr rfl⟩
  | setSignature signature =>
      rcases setSignature_outcome (r := r) signature with ⟨_, run⟩ | ⟨_, hr, run⟩
      · exact spares_of_error run h
      · exact spares_of_ok run ⟨trivial, .signing hr rfl⟩
  | setDomains cat domains =>
      rcases setDomains_outcome (r := r) cat domains with ⟨_, run⟩ | ⟨_, _, hr, hlen, run⟩
      · exact spares_of_error run h
      · exact spares_of_ok run ⟨hlen, .binding hr rfl⟩
  | one cat env => exact spares_opening hs rfl (upholds_one hs cat env)
  | zero cat env => exact spares_opening hs rfl (upholds_zero hs cat env)
  | load cat env files folder =>
      rcases load_outcome (r := r) cat env files folder with ⟨_, run⟩ | ⟨_, _, run⟩ |
        ⟨p, _, _, _, _, _, _, hp, _, run⟩
      · exact spares_of_error (bind_eq_error run) h
      -- `load` answers with the refusal, and the request stops behind it.
      · exact spares_of_error (bind_of_ok run) h
      · exact spares_of_ok (bind_of_ok run)
          ⟨((upholds_load hs cat env files folder).of_ok run).1,
            .opening rfl (sound_prepare hp).1 rfl⟩
  | writeTo files folder =>
      exact spares_withFiles ((upholds_writeTo hi h files folder).spares.mono fun _ _ h' =>
        ⟨h'.1.1, .staying rfl h'.1.2.steady⟩)
  | save files folder =>
      exact spares_withFiles ((spares_save hi h files folder).mono fun _ _ => advance_of_shut rfl)
  | print files cat folder =>
      exact spares_withFiles ((spares_print hi h files cat folder).mono fun _ _ =>
        advance_of_shut rfl)
  | close => exact (spares_close h).mono fun _ _ => advance_of_shut rfl
  | operate cat operation =>
      exact (operation.spares hs cat).mono fun _ _ h' => ⟨h'.1, .staying rfl h'.2⟩

/-- What a request comes to. -/
theorem Request.outcome (request : Request) : (after request.run r).Sound ∧
    (answer request.run r = .ok () ∧ Advance r (after request.run r) request ∨
      (∃ e, answer request.run r = .error e) ∧ Undisturbed r (after request.run r)) := by
  have hspared := request.spares hs
  unfold after answer
  cases run : request.run r with
  | ok a r' =>
      obtain ⟨hs', hadvance⟩ := hspared.of_ok run
      exact ⟨hs', .inl ⟨rfl, hadvance⟩⟩
  | error e r' =>
      obtain ⟨hs', hundisturbed⟩ := hspared.of_error run
      exact ⟨hs', .inr ⟨⟨e, rfl⟩, hundisturbed⟩⟩

end Requests

/-! ## 3. What can be seen -/

section Seen

variable {r r' : Relation} {request : Request}

/-- Everything that can be seen of a relation is the same. -/
structure Unchanged (r r' : Relation) : Prop where
  name : r'.name = r.name
  signature : r'.signature? = r.signature?
  domains : r'.domains? = r.domains?
  state : r'.state = r.state
  contents : ∀ schema c, r.stage = .opened schema c → ∃ c', r'.stage = .opened schema c' ∧
    c'.root = c.root ∧ c'.layout = c.layout ∧ c'.tuples = c.tuples

/-- **Nothing is seen of what an undisturbed relation has lent.** -/
theorem Undisturbed.unchanged (hs : r.Sound) (h : Undisturbed r r') : Unchanged r r' := by
  obtain rfl | ⟨schema, c, hopen, m, n, rfl, _⟩ := h
  · exact ⟨rfl, rfl, rfl, rfl, fun _ c hopen => ⟨c, hopen, rfl, rfl, rfl⟩⟩
  · have hc := (hs.contents hopen).2
    obtain ⟨config, stage⟩ := r
    obtain rfl : stage = .opened schema c := hopen
    refine ⟨rfl, rfl, rfl, rfl, fun schema' c' hopen' => ?_⟩
    obtain ⟨rfl, rfl⟩ := Stage.opened.inj hopen'
    exact ⟨_, rfl, rfl, rfl, hc.tuples_next n⟩

theorem Steady.state_eq (h : Steady r r') : r'.state = r.state := by
  cases h with
  | same h => rw [h]
  | opened hr hr' => rw [state, state, hr, hr']

/-- **The state stays, or is the next one.** -/
theorem Advance.state (h : Advance r r' request) :
    r'.state = r.state ∨ r.state.next? = some r'.state := by
  cases h with
  | naming _ hr hr' | signing hr hr' =>
      exact .inl (by rw [Relation.state, Relation.state, hr, hr'])
  | binding hr hr' | opening _ hr hr' | closing _ hr hr' =>
      exact .inr (by rw [Relation.state, Relation.state, hr, hr']; rfl)
  | staying _ h => exact .inl h.state_eq

/-- **Requests that open are those that come to an open relation.** -/
theorem Advance.opened_iff (h : Advance r r' request) :
    r.state ≠ .opened ∧ r'.state = .opened ↔ request.effect = .opens := by
  cases h with
  | naming _ hr hr' | signing hr hr' | binding hr hr' =>
      simp [Relation.state, hr, hr', Request.effect]
  | opening heffect hr hr' | closing heffect hr hr' => simp [Relation.state, hr, hr', heffect]
  | staying heffect h => simp [h.state_eq, heffect]

/-- **Requests that close are those that come to a closed relation.** -/
theorem Advance.closed_iff (h : Advance r r' request) :
    r.state ≠ .closed ∧ r'.state = .closed ↔ request.effect = .closes := by
  cases h with
  | naming _ hr hr' | signing hr hr' | binding hr hr' =>
      simp [Relation.state, hr, hr', Request.effect]
  | opening heffect hr hr' | closing heffect hr hr' => simp [Relation.state, hr, hr', heffect]
  | staying heffect h => simp [h.state_eq, heffect]

/-- What is set of a description is set to the same later. -/
structure Extends (r r' : Relation) : Prop where
  name : r.name ≠ "" → r'.name = r.name
  signature : ∀ signature, r.signature? = some signature → r'.signature? = some signature
  domains : ∀ domains, r.domains? = some domains → r'.domains? = some domains

theorem Extends.refl (r : Relation) : Extends r r := ⟨fun _ => rfl, fun _ => id, fun _ => id⟩

theorem Extends.trans {r'' : Relation} (h : Extends r r') (h' : Extends r' r'') :
    Extends r r'' where
  name hname :=
    have heq := h.name hname
    (h'.name (heq ▸ hname)).trans heq
  signature signature hsignature := h'.signature signature (h.signature signature hsignature)
  domains domains hdomains := h'.domains domains (h.domains domains hdomains)

theorem Unchanged.extends (h : Unchanged r r') : Extends r r' where
  name _ := h.name
  signature _ hsignature := h.signature.trans hsignature
  domains _ hdomains := h.domains.trans hdomains

/-- **What is set of a description is not set again.** -/
theorem Advance.extends (h : Advance r r' request) : Extends r r' := by
  cases h with
  | staying _ h =>
      cases h with
      | same h => exact h ▸ .refl r
      | opened hr hr' =>
          constructor <;> simp [name, signature?, domains?, schema?, hr, hr']
  | naming _ hr hr' | signing hr hr' | binding hr hr' | opening _ hr hr' | closing _ hr hr' =>
      constructor <;> simp [name, signature?, domains?, schema?, hr, hr']

/-- A relation of which anything is known has a name. -/
def Named (r : Relation) : Prop := r.stage ≠ .nameless → r.name ≠ ""

theorem Undisturbed.named (h : Undisturbed r r') (hnamed : Named r) : Named r' := by
  obtain rfl | ⟨schema, c, hopen, m, _, rfl, _⟩ := h
  · exact hnamed
  · have hname := hnamed (by rw [hopen]; exact Stage.noConfusion)
    rw [name, hopen] at hname
    exact fun _ => hname

theorem Advance.named (h : Advance r r' request) (hnamed : Named r) : Named r' := by
  unfold Named at hnamed ⊢
  cases h with
  | naming hname _ hr' => simpa [name, hr'] using hname
  | staying _ h =>
      cases h with
      | same h => exact h ▸ hnamed
      | opened hr hr' => simpa [name, hr, hr'] using hnamed
  | signing hr hr' | binding hr hr' | opening _ hr hr' | closing _ hr hr' =>
      simpa [name, hr, hr'] using hnamed

/-- The name is set before the signature. -/
theorem Named.name_ne (h : Named r) (hsignature : r.signature?.isSome) : r.name ≠ "" :=
  h fun hstage => by simp [signature?, schema?, hstage] at hsignature

/-- The signature is set before the domains. -/
theorem isSome_signature? (hdomains : r.domains?.isSome) : r.signature?.isSome := by
  revert hdomains
  unfold domains? signature? schema?
  cases r.stage <;> simp

theorem isSome_domains?_iff : r.domains?.isSome ↔ r.state ≠ .unbound := by
  unfold domains? schema? state
  cases r.stage <;> simp

/-- A relation that holds contents is open. -/
theorem openContents_eq_ok_iff : (∃ parts, r.openContents = .ok parts) ↔ r.state = .opened := by
  unfold openContents state
  cases r.stage <;> simp

end Seen

/-! ## 4. Many requests -/

section Serving

variable {r : Relation}

theorem serve_append (requests more : List Request) (r : Relation) :
    serve (requests ++ more) r = serve more (serve requests r) := List.foldl_append

theorem serve_concat (requests : List Request) (request : Request) (r : Relation) :
    serve (requests ++ [request]) r = after request.run (serve requests r) :=
  serve_append requests [request] r

/-- **A step rule for requests.** -/
theorem serve_induction {p : Relation → Prop} (hs : r.Sound) (h : p r)
    (keep : ∀ {r r' : Relation} {request : Request}, r.Sound →
      Advance r r' request ∨ Undisturbed r r' → p r → p r')
    (requests : List Request) : (serve requests r).Sound ∧ p (serve requests r) := by
  induction requests generalizing r with
  | nil => exact ⟨hs, h⟩
  | cons request requests ih =>
      obtain ⟨hs', houtcome⟩ := request.outcome hs
      exact ih hs' (keep hs (houtcome.imp And.right And.right) h)

theorem extends_serve (hs : r.Sound) (requests : List Request) : Extends r (serve requests r) :=
  (serve_induction hs (.refl r) (fun hs hstep h =>
    h.trans (hstep.elim (·.extends) (·.unchanged hs |>.extends))) requests).2

/-- **The state stays, or is the next one**, whether a request is answered or refused. -/
theorem state_step {r' : Relation} {request : Request} (hs : r.Sound)
    (h : Advance r r' request ∨ Undisturbed r r') :
    r'.state = r.state ∨ r.state.next? = some r'.state :=
  h.elim (·.state) fun h => .inl (h.unchanged hs).state

/-- **A relation that was opened is open or closed.** -/
theorem opened_or_closed_serve (hs : r.Sound) (hopened : r.state = .opened)
    (requests : List Request) :
    (serve requests r).state = .opened ∨ (serve requests r).state = .closed := by
  refine (serve_induction (p := fun r => r.state = .opened ∨ r.state = .closed) hs (.inl hopened)
    (fun hs hstep h => ?_) requests).2
  rcases state_step hs hstep with hsame | hnext
  · rwa [hsame]
  · rcases h with h | h <;> rw [h] at hnext
    · exact .inr (Option.some.inj hnext).symm
    · cases hnext

theorem sound_serve (config : Option Config) (requests : List Request) :
    (serve requests (create config)).Sound :=
  (serve_induction (r := create config) (p := fun _ => True) trivial trivial
    (fun _ _ _ => trivial) requests).1

theorem named_serve (config : Option Config) (requests : List Request) :
    Named (serve requests (create config)) :=
  (serve_induction (r := create config) trivial (fun h => absurd rfl h) (fun _ hstep h =>
    hstep.elim (·.named h) (·.named h)) requests).2

/-- **A relation that is closed was open.** -/
theorem exists_opened_of_closed (config : Option Config) (requests : List Request)
    (hclosed : (serve requests (create config)).state = .closed) :
    ∃ earlier, earlier <+: requests ∧ (serve earlier (create config)).state = .opened := by
  induction requests using List.reverseRecOn with
  | nil => cases hclosed
  | append_singleton requests request ih =>
      have hs := sound_serve config requests
      rw [serve_concat] at hclosed
      -- The last request found the relation closed, or it is the one that closed it.
      rcases state_step hs ((request.outcome hs).2.imp And.right And.right) with hsame | hnext
      · obtain ⟨earlier, hprefix, hopened⟩ := ih (hsame.symm.trans hclosed)
        exact ⟨earlier, hprefix.trans (List.prefix_append _ _), hopened⟩
      · refine ⟨requests, List.prefix_append _ _, ?_⟩
        rw [hclosed] at hnext
        cases hstate : (serve requests (create config)).state <;> rw [hstate] at hnext <;>
          first | rfl | cases hnext

/-- **A relation is bound exactly while it is described and was not opened.** -/
theorem bound_iff (config : Option Config) (requests : List Request) :
    (serve requests (create config)).state = .bound ↔
      (serve requests (create config)).domains?.isSome ∧
      ∀ earlier, earlier <+: requests → (serve earlier (create config)).state ≠ .opened := by
  rw [isSome_domains?_iff]
  constructor
  · intro hbound
    refine ⟨by rw [hbound]; decide, ?_⟩
    rintro earlier ⟨rest, rfl⟩ hopened
    rw [serve_append] at hbound
    rcases opened_or_closed_serve (sound_serve config earlier) hopened rest with h | h <;>
      cases hbound.symm.trans h
  · rintro ⟨hunbound, hnever⟩
    cases hstate : (serve requests (create config)).state with
    | unbound => exact absurd hstate hunbound
    | bound => rfl
    | opened => exact absurd hstate (hnever requests (List.prefix_refl _))
    | closed =>
        obtain ⟨earlier, hprefix, hopened⟩ := exists_opened_of_closed config requests hstate
        exact absurd hopened (hnever earlier hprefix)

end Serving

/-! ## 5. Main result -/

/-- **The life cycle of a relation.** Whatever was requested of it since it was new, its state stays
or goes on to the next one with every request. Name, signature and domains are set in this order,
each once and for good. The relation is bound while all three are set and it was never opened, and
has contents while it is open. The requests that open it are those to open or to load that are
answered, and the requests that close it those to close, save or print. One that is refused changes
nothing that can be seen. -/
theorem serve_lifecycle (config : Option Config) (requests more : List Request)
    (request : Request) :
    let r := serve requests (create config)
    let next := after request.run r
    (next.state = r.state ∨ r.state.next? = some next.state) ∧
    Extends r (serve more r) ∧
    ((r.signature?.isSome → r.name ≠ "") ∧ (r.domains?.isSome → r.signature?.isSome)) ∧
    (r.state = .bound ↔ (r.name ≠ "" ∧ r.signature?.isSome ∧ r.domains?.isSome) ∧
      ∀ earlier, earlier <+: requests → (serve earlier (create config)).state ≠ .opened) ∧
    ((∃ parts, r.openContents = .ok parts) ↔ r.state = .opened) ∧
    (r.state ≠ .opened ∧ next.state = .opened ↔
      request.effect = .opens ∧ answer request.run r = .ok ()) ∧
    (r.state ≠ .closed ∧ next.state = .closed ↔
      request.effect = .closes ∧ answer request.run r = .ok ()) ∧
    ∀ e, answer request.run r = .error e → Unchanged r next := by
  intro r next
  have hs : r.Sound := sound_serve config requests
  have hnamed : Named r := named_serve config requests
  have houtcome := (request.outcome hs).2
  refine ⟨state_step hs (houtcome.imp And.right And.right), extends_serve hs more,
    ⟨hnamed.name_ne, isSome_signature?⟩, ?_, openContents_eq_ok_iff, ?_, ?_, fun e herror => ?_⟩
  · refine (bound_iff config requests).trans (and_congr_left' ⟨fun hdomains => ?_, (·.2.2)⟩)
    have hsignature := isSome_signature? hdomains
    exact ⟨hnamed.name_ne hsignature, hsignature, hdomains⟩
  · rcases houtcome with ⟨hanswer, hadvance⟩ | ⟨⟨e, hanswer⟩, hundisturbed⟩
    · rw [hadvance.opened_iff, hanswer]
      exact (and_iff_left rfl).symm
    · rw [hanswer, (hundisturbed.unchanged hs).state]
      exact iff_of_false (fun h => h.1 h.2) fun h => by cases h.2
  · rcases houtcome with ⟨hanswer, hadvance⟩ | ⟨⟨e, hanswer⟩, hundisturbed⟩
    · rw [hadvance.closed_iff, hanswer]
      exact (and_iff_left rfl).symm
    · rw [hanswer, (hundisturbed.unchanged hs).state]
      exact iff_of_false (fun h => h.1 h.2) fun h => by cases h.2
  · rcases houtcome with ⟨hanswer, _⟩ | ⟨_, hundisturbed⟩
    · cases hanswer.symm.trans herror
    · exact hundisturbed.unchanged hs

/-- A relation that was opened is closed, and has refused another name. -/
theorem serve_lifecycle_closed : ∃ config requests,
    let r := serve requests (create config)
    r.state = .opened ∧ r.name = "own" ∧ (∃ parts, r.openContents = .ok parts) ∧
    (after Request.close.run r).state = .closed ∧
    (serve [.setName "other", .close] r).name = "own" ∧
    Unchanged r (after (Request.setName "other").run r) := by
  let cat : Catalog := ⟨#[.words ⟨"V", fun n => s!"{n}", ⟨#[7, 9], ∅⟩⟩]⟩
  let config : Option Config := some ⟨2, 2, 0.2, false, .native⟩
  let requests : List Request := [.setName "own", .setSignature ⟨["V0"], none, [[0]]⟩,
    .setDomains cat [0], .zero cat [], .operate cat (.addIndices [1])]
  have hopen : (serve requests (create config)).state = .opened := by decide +kernel
  have hname : (serve requests (create config)).name = "own" := by decide +kernel
  have hclose : answer Request.close.run (serve requests (create config)) = .ok () := by
    decide +kernel
  have hrefused : answer (Request.setName "other").run (serve requests (create config)) =
      .error (.fault (.nameAlreadySet "own")) := by decide +kernel
  obtain ⟨-, hextends, -, -, hcontents, -, hclosing, -⟩ :=
    serve_lifecycle config requests [.setName "other", .close] .close
  have hunchanged := (serve_lifecycle config requests [] (.setName "other")).2.2.2.2.2.2.2
  exact ⟨config, requests, hopen, hname, hcontents.mpr hopen, (hclosing.mpr ⟨rfl, hclose⟩).2,
    (hextends.name (by rw [hname]; decide)).trans hname, hunchanged _ hrefused⟩

end Factbase.Relation
