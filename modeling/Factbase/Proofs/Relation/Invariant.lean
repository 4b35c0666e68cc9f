import Factbase.Proofs.Diagram.Rebuilding
import Factbase.Proofs.Relation.Checking
import Factbase.Proofs.Relation.Ranges
import Factbase.Relation.Algebra
import Factbase.Relation.Storage
import Factbase.Relation.View

/-!
# The invariant of relations

An open relation is sound where its manager is well-formed, its diagram is stored there, and its
layout is a sound one.

* `Contents.Sound`, `Sound`: the invariant;
* `Lasting`, `Editable`: the invariants that programs over the manager keep;
* `upholds_onManager`, `spares_update`: **they do**;
* `upholds_setName`, …, `upholds_close`, `upholds_one`, `upholds_zero`: describing, opening and
  closing keep a relation sound;
* `ends_readContents`: **a file that is read comes to a stored diagram or to an error, whatever the
  file is.**
-/

namespace Factbase.Relation

open Diagram

/-! ## 1. The invariant -/

/-- The contents of an open relation are sound. -/
structure Contents.Sound (schema : Schema) (c : Contents) : Prop where
  manager : c.manager.WellFormed
  root : c.manager.Holds c.root
  layout : c.layout.Sound c.manager
  sizes : c.layout.sizes.length = schema.domains.length

/-- The description has a domain for every slot, and the contents are sound. -/
def Sound (r : Relation) : Prop :=
  match r.stage with
  | .bound schema | .closed schema => schema.domains.length = schema.signature.arity
  | .opened schema c => schema.domains.length = schema.signature.arity ∧ c.Sound schema
  | _ => True

/-- The relation with other contents. -/
def withContents (r : Relation) (schema : Schema) (c : Contents) : Relation :=
  { r with stage := .opened schema c }

section Contents

variable {schema : Schema} {c : Contents} (h : c.Sound schema)

include h

/-- The manager may grow, and the diagram may be any other one. -/
theorem Contents.Sound.next {m : Manager} {root : Edge} (n : c.manager.Next m)
    (hr : m.Holds root) : Contents.Sound schema ⟨m, root, c.layout⟩ :=
  ⟨n.1, hr, h.layout.next n, h.sizes⟩

/-- The layout has a slot for every domain. -/
theorem Contents.Sound.arity_eq : c.layout.arity = schema.domains.length := by
  have hlen := congrArg List.length h.layout.widths
  rw [List.length_map, List.length_map] at hlen
  rw [Layout.arity, hlen, h.sizes]

end Contents

/-! ## 2. Programs over relations -/

section Running

variable {α : Type} {config : Option Config} {schema : Schema} {m m' : Manager} {root : Edge}
  {layout : Layout} {act : Edge → Layout → Op α}

theorem onManager_eq_ok {a : α} (run : act root layout m = .ok a m') :
    onManager act ⟨config, .opened schema ⟨m, root, layout⟩⟩ =
      .ok a ⟨config, .opened schema ⟨m', root, layout⟩⟩ := by
  simp only [onManager, run]

theorem onManager_eq_error {fault : Fault} (run : act root layout m = .error fault m') :
    onManager act ⟨config, .opened schema ⟨m, root, layout⟩⟩ =
      .error (.fault fault) ⟨config, .opened schema ⟨m', root, layout⟩⟩ := by
  simp only [onManager, run]

end Running

/-- Only sound relations have the invariant, and it lasts while the manager of an open one grows. -/
structure Lasting (i : Relation → Prop) : Prop where
  sound : ∀ {r : Relation}, i r → r.Sound
  grown : ∀ {r : Relation} {schema : Schema} {c : Contents} {m : Manager}, i r →
    r.stage = .opened schema c → c.manager.Next m →
    i (r.withContents schema { c with manager := m })

/-- The invariant lasts, also where another diagram of the manager becomes that of the relation. -/
structure Editable (i : Relation → Prop) : Prop extends Lasting i where
  rerooted : ∀ {r : Relation} {schema : Schema} {c : Contents} {root : Edge}, i r →
    r.stage = .opened schema c → c.manager.Holds root → i (r.withContents schema { c with root })

/-- The contents of a sound open relation. -/
theorem Sound.contents {r : Relation} (h : r.Sound) {schema : Schema} {c : Contents}
    (hopen : r.stage = .opened schema c) :
    schema.domains.length = schema.signature.arity ∧ c.Sound schema := by
  unfold Sound at h
  rwa [hopen] at h

/-- A sound bound relation has a domain for every slot. -/
theorem Sound.arity_of_bound {r : Relation} (h : r.Sound) {schema : Schema}
    (hbound : r.stage = .bound schema) : schema.domains.length = schema.signature.arity := by
  unfold Sound at h
  rwa [hbound] at h

theorem editable_sound : Editable Sound where
  sound h := h
  grown h hopen n :=
    have hc := h.contents hopen
    ⟨hc.1, hc.2.next n (n.holds hc.2.root)⟩
  rerooted h hopen hroot :=
    have hc := h.contents hopen
    ⟨hc.1, hc.2.next (.refl hc.2.manager) hroot⟩

section Programs

variable {α : Type} {i : Relation → Prop} {r : Relation}

section Lasting

variable (hi : Lasting i) (h : i r)

include hi h

/-- A program over the manager keeps an open relation open, and its diagram and layout. -/
theorem upholds_onManager {act : Edge → Layout → Op α} {post : α → Relation → Prop}
    (hact : ∀ schema c, r.stage = .opened schema c → c.Sound schema →
      Manager.Proceeds (act c.root c.layout) c.manager fun a m =>
        post a (r.withContents schema { c with manager := m })) :
    Upholds i (onManager act) r post := by
  obtain ⟨config, stage⟩ := r
  cases stage with
  | opened schema c =>
      have hproc := hact schema c rfl ((hi.sound h).contents rfl).2
      obtain ⟨manager, root, layout⟩ := c
      cases run : act root layout manager with
      | ok a m =>
          obtain ⟨n, hp⟩ := Upholds.of_ok hproc run
          exact upholds_of_ok (onManager_eq_ok run) (hi.grown h rfl n) hp
      | error fault m =>
          have n := Upholds.of_error hproc run
          exact upholds_of_error (onManager_eq_error run) (hi.grown h rfl n)
  | _ => exact upholds_of_error rfl h

/-- What an open relation is made of. -/
theorem upholds_opening : Upholds i opening r fun parts r' => r' = r ∧
    ∃ c, r.stage = .opened parts.1 c ∧ c.Sound parts.1 ∧ c.root = parts.2.1 ∧
      c.layout = parts.2.2 := by
  have hs := hi.sound h
  obtain ⟨config, stage⟩ := r
  cases stage with
  | opened schema c => exact upholds_of_ok rfl h ⟨rfl, c, rfl, hs.2, rfl, rfl⟩
  | _ => exact upholds_of_error rfl h

end Lasting

/-- The diagram of a relation with the invariant has been replaced by one that the manager holds. -/
def Rerooted (i : Relation → Prop) (r' : Relation) : Prop :=
  ∃ r schema c root, i r ∧ r.stage = .opened schema c ∧ c.manager.Holds root ∧
    r' = r.withContents schema { c with root }

theorem Editable.of_rerooted (hi : Editable i) (h : Rerooted i r) : i r := by
  obtain ⟨_, _, _, _, h, hopen, hroot, rfl⟩ := h
  exact hi.rerooted h hopen hroot

/-- **A diagram that is made becomes the diagram of the relation**, unless the program stops. -/
theorem spares_update (hi : Lasting i) (h : i r) {act : Edge → Layout → Op Edge}
    (hact : ∀ schema c, r.stage = .opened schema c → c.Sound schema →
      Manager.Proceeds (act c.root c.layout) c.manager fun e m => m.Holds e) :
    Spares i (update act) r fun _ => Rerooted i := by
  have hrun : Upholds i (onManager act) r fun e r' => ∃ schema c,
      r'.stage = .opened schema c ∧ c.manager.Holds e :=
    upholds_onManager hi h fun schema c hopen hc =>
      (hact schema c hopen hc).mono fun e m _ he => ⟨schema, _, rfl, he⟩
  refine hrun.spares_bind fun e r' hr' ⟨schema, c, hopen, he⟩ => ?_
  obtain ⟨config, stage⟩ := r'
  obtain rfl : stage = .opened schema c := hopen
  exact spares_of_ok rfl ⟨_, schema, c, e, hr', rfl, he, rfl⟩

section Refusals

variable (h : i r)

include h

theorem upholds_orProblem {x : Except RelationProblem α} :
    Upholds i (orProblem x) r fun a r' => r' = r ∧ x = .ok a := by
  cases x with
  | ok a => exact upholds_of_ok rfl h ⟨rfl, rfl⟩
  | error problem => exact upholds_of_error rfl h

theorem upholds_misuse {fault : Fault} :
    Upholds i (misuse fault : RelationM α) r fun _ _ => False := upholds_of_error rfl h

theorem upholds_problem {found : RelationProblem} :
    Upholds i (problem found : RelationM α) r fun _ _ => False := upholds_of_error rfl h

end Refusals

end Programs

/-! ## 3. Describing and opening -/

section Outcomes

variable {r : Relation}

/-- **A new relation gets a name that is not empty**, and any other is left as it was. -/
theorem setName_outcome (name : String) : (∃ failure, setName name r = .error failure r) ∨
    r.stage = .nameless ∧ name ≠ "" ∧ setName name r = .ok () { r with stage := .named name } := by
  obtain ⟨config, stage⟩ := r
  cases stage with
  | nameless =>
      by_cases hname : name.isEmpty = true
      · exact .inl ⟨_, if_pos hname⟩
      · exact .inr ⟨rfl, fun heq => hname (heq ▸ rfl), if_neg hname⟩
  | _ => exact .inl ⟨_, rfl⟩

/-- **A named relation gets a signature.** -/
theorem setSignature_outcome (signature : Signature) :
    (∃ failure, setSignature signature r = .error failure r) ∨ ∃ name, r.stage = .named name ∧
      setSignature signature r = .ok () { r with stage := .signed name signature } := by
  obtain ⟨config, stage⟩ := r
  cases stage with
  | named name => exact .inr ⟨name, rfl, rfl⟩
  | _ => exact .inl ⟨_, rfl⟩

/-- **A relation with a signature gets a domain for every slot.** -/
theorem setDomains_outcome (cat : Catalog) (domains : List Nat) :
    (∃ failure, setDomains cat domains r = .error failure r) ∨ ∃ name signature,
      r.stage = .signed name signature ∧ domains.length = signature.arity ∧
      setDomains cat domains r = .ok () { r with stage := .bound ⟨name, signature, domains⟩ } := by
  obtain ⟨config, stage⟩ := r
  cases stage with
  | signed name signature =>
      by_cases hlen : domains.length = signature.arity
      · cases hkinds : checkKinds name cat 0 (signature.names.zip domains) with
        | error fault =>
            refine .inl ⟨.fault fault, ?_⟩
            simp only [setDomains, ne_eq, not_true_eq_false, if_false, hlen, hkinds]
        | ok u =>
            refine .inr ⟨name, signature, rfl, hlen, ?_⟩
            simp only [setDomains, ne_eq, not_true_eq_false, if_false, hlen, hkinds]
      · exact .inl ⟨_, if_pos hlen⟩
  | _ => exact .inl ⟨_, rfl⟩

end Outcomes

section Describing

variable {r : Relation} (h : r.Sound)

include h

theorem upholds_setName (name : String) : Upholds Sound (setName name) r fun _ _ => True := by
  rcases setName_outcome (r := r) name with ⟨_, run⟩ | ⟨_, _, run⟩
  · exact upholds_of_error run h
  · exact upholds_of_ok run trivial trivial

theorem upholds_setSignature (signature : Signature) :
    Upholds Sound (setSignature signature) r fun _ _ => True := by
  rcases setSignature_outcome (r := r) signature with ⟨_, run⟩ | ⟨_, _, run⟩
  · exact upholds_of_error run h
  · exact upholds_of_ok run trivial trivial

theorem upholds_setDomains (cat : Catalog) (domains : List Nat) :
    Upholds Sound (setDomains cat domains) r fun _ _ => True := by
  rcases setDomains_outcome (r := r) cat domains with ⟨_, run⟩ | ⟨_, _, _, hlen, run⟩
  · exact upholds_of_error run h
  · exact upholds_of_ok run hlen trivial

theorem upholds_close : Upholds Sound close r fun _ _ => True := by
  obtain ⟨config, stage⟩ := r
  cases stage with
  | opened schema c => exact upholds_of_ok rfl h.1 trivial
  | _ => exact upholds_of_error rfl h

omit h in
/-- **A relation that is prepared for opening has a sound layout** for the present sizes. -/
theorem sound_prepare {cat : Catalog} {env : Environment} {p : Prepared}
    (run : r.prepare cat env = .ok p) : r.stage = .bound p.schema ∧ p.manager.WellFormed ∧
      p.layout.Sound p.manager ∧
      p.layout.sizes = p.schema.domains.map fun handle => (cat.domain handle).size := by
  obtain ⟨config, stage⟩ := r
  unfold prepare at run
  cases stage with
  | bound schema =>
      obtain ⟨manager, hmanager, run⟩ := ok_of_bind run
      obtain ⟨hm, hnodes, horder⟩ := Manager.wellFormed_create hmanager
      dsimp only at run
      split at run
      · rename_i layout m hcreate
        obtain rfl := Except.ok.inj run
        have hvars : manager.numVars = 0 := by rw [Manager.numVars, horder]; rfl
        obtain ⟨hm', hlayout, hsizes, _⟩ := Layout.sound_create hm hnodes hvars hcreate
        exact ⟨rfl, hm', hlayout, hsizes⟩
      · cases run
  | _ => cases run

omit h in
/-- **Opening comes to a relation with the layout that was prepared**, or leaves it as it was. -/
theorem openAs_outcome (cat : Catalog) (env : Environment) (act : Layout → Op Edge) :
    (∃ failure, openAs cat env act r = .error failure r) ∨
      ∃ p root m, r.prepare cat env = .ok p ∧ act p.layout p.manager = .ok root m ∧
        openAs cat env act r = .ok () (r.withContents p.schema ⟨m, root, p.layout⟩) := by
  cases hp : r.prepare cat env with
  | error fault => exact .inl ⟨.fault fault, by simp only [openAs, hp]⟩
  | ok p =>
      cases run : act p.layout p.manager with
      | ok root m => exact .inr ⟨p, root, m, rfl, run, by simp only [openAs, hp, run]; rfl⟩
      | error fault m => exact .inl ⟨.fault fault, by simp only [openAs, hp, run]⟩

/-- **A relation that is opened after it was prepared is sound.** -/
theorem sound_opened {cat : Catalog} {env : Environment} {p : Prepared}
    (hp : r.prepare cat env = .ok p) {m : Manager} {root : Edge} (n : p.manager.Next m)
    (hroot : m.Holds root) : (r.withContents p.schema ⟨m, root, p.layout⟩).Sound := by
  obtain ⟨hstage, _, hl, hsizes⟩ := sound_prepare hp
  have hlen : p.layout.sizes.length = p.schema.domains.length := by rw [hsizes, List.length_map]
  exact ⟨h.arity_of_bound hstage, n.1, hroot, hl.next n, hlen⟩

theorem upholds_openAs {cat : Catalog} {env : Environment} {act : Layout → Op Edge}
    (hact : ∀ l m, m.WellFormed → l.Sound m → Manager.Proceeds (act l) m fun e m' => m'.Holds e) :
    Upholds Sound (openAs cat env act) r fun _ r' =>
      ∃ schema layout manager root m, act layout manager = .ok root m ∧
        r' = r.withContents schema ⟨m, root, layout⟩ := by
  rcases openAs_outcome (r := r) cat env act with ⟨_, run⟩ | ⟨p, root, m, hp, hmade, run⟩
  · exact upholds_of_error run h
  · obtain ⟨_, hm, hl, _⟩ := sound_prepare hp
    obtain ⟨n, hroot⟩ := (hact p.layout p.manager hm hl).of_ok hmade
    exact upholds_of_ok run (sound_opened h hp n hroot) ⟨_, _, _, root, m, hmade, rfl⟩

theorem upholds_zero (cat : Catalog) (env : Environment) :
    Upholds Sound (zero cat env) r fun _ r' =>
      ∃ schema layout m, r' = r.withContents schema ⟨m, .zero, layout⟩ :=
  (upholds_openAs h fun _ _ hm _ => Manager.proceeds_pure hm hm.holds_zero).mono
    fun _ _ _ ⟨schema, layout, manager, root, m, run, hr'⟩ => by
      obtain ⟨rfl, rfl⟩ := EStateM.Result.ok.inj run
      exact ⟨schema, layout, manager, hr'⟩

theorem upholds_one (cat : Catalog) (env : Environment) :
    Upholds Sound (one cat env) r fun _ _ => True :=
  (upholds_openAs h fun _ _ hm hl => (hl.makes_inDomains hm).proceeds).mono
    fun _ _ _ _ => trivial

end Describing

/-! ## 4. Loading and combining -/

/-- What a map made of a list has, the list has. -/
theorem mem_of_getElem?_ofList {l : List (Nat × Nat)} {k v : Nat}
    (h : (Std.HashMap.ofList l)[k]? = some v) : (k, v) ∈ l := by
  have insertMany : ∀ (l : List (Nat × Nat)) (start : Std.HashMap Nat Nat),
      (start.insertMany l)[k]? = some v → (k, v) ∈ l ∨ start[k]? = some v := by
    intro l
    induction l with
    | nil => exact fun start h => Or.inr (by rwa [Std.HashMap.insertMany_nil] at h)
    | cons entry l ih =>
        intro start h
        rw [Std.HashMap.insertMany_cons] at h
        rcases ih _ h with hmem | hget
        · exact Or.inl (List.mem_cons_of_mem _ hmem)
        · rw [Std.HashMap.getElem?_insert] at hget
          split at hget
          · rename_i heq
            obtain rfl := Option.some.inj hget
            rw [← beq_iff_eq.mp heq]
            exact Or.inl List.mem_cons_self
          · exact Or.inr hget
  rw [Std.HashMap.ofList_eq_insertMany_empty] at h
  refine (insertMany l ∅ h).resolve_right fun hget => ?_
  rw [Std.HashMap.getElem?_empty] at hget
  cases hget

section Loading

variable {l : Layout} {m : Manager} (hl : l.Sound m)

/-- The bits that a file lacks are among the slots' bits, in order. -/
theorem fixed_sublist : ∀ (slots fileVars : List (List Nat)),
    (((slots.zip fileVars).map fun (vars, saved) => (vars.take (vars.length - saved.length),
      vars.drop (vars.length - saved.length), saved)).flatMap fun (missing, _, _) =>
        missing.map fun (v : Nat) => -(v : Int)).map Int.natAbs |>.Sublist slots.flatten
  | [], _ => List.nil_sublist _
  | _ :: _, [] => List.nil_sublist _
  | vars :: slots, saved :: fileVars => by
      rw [List.zip_cons_cons, List.map_cons, List.flatMap_cons, List.map_append, List.flatten_cons]
      refine List.Sublist.append ?_ (fixed_sublist slots fileVars)
      rw [List.map_map]
      have hid : Int.natAbs ∘ (fun v : Nat => -(v : Int)) = id := funext fun v => by simp
      rw [hid, List.map_id]
      exact List.take_sublist _ _

include hl

/-- **A file's variables are fitted to variables of the layout.** -/
theorem fit_allocated (fileVars : List (List Nat)) (v w : Nat)
    (h : (fit l fileVars).remap[v]? = some w) : m.order.Allocated w := by
  have hmem := mem_of_getElem?_ofList h
  obtain ⟨⟨_, vars, saved⟩, hextra, hmem⟩ := List.mem_flatMap.mp hmem
  obtain ⟨⟨all, saved'⟩, hzip, heq⟩ := List.mem_map.mp hextra
  obtain ⟨_, rfl, _⟩ := Prod.mk.inj heq |>.imp id Prod.mk.inj
  refine hl.allocated (List.of_mem_zip hzip).1 (List.mem_of_mem_drop (List.of_mem_zip hmem).2)

theorem fit_cubic (fileVars : List (List Nat)) : m.Cubic (fit l fileVars).fixed :=
  hl.cubic (fixed_sublist l.slots fileVars)

/-- Reading the contents of a file comes to a diagram, which is true on tuples inside the domains
only, or to an error. -/
theorem ends_readContents (h : m.WellFormed) (fileVars : List (List Nat))
    (lines : List (Option (List Char))) :
    Ends (readContents l (fit l fileVars) lines) m fun result m' =>
      m.Next m' ∧ ∀ parts, result = .ok parts → m'.Holds parts.1 ∧
        ∀ ρ, m'.eval ρ parts.1 = true → l.Inside (l.read ρ) := by
  unfold readContents
  refine (Manager.ends_readBody h (fit_allocated hl fileVars) lines).bind
    fun body m₁ ⟨n₁, hbody⟩ => ?_
  cases body with
  | error error => exact ends_pure ⟨n₁, fun _ he => by cases he⟩
  | ok e =>
      have hl₁ := hl.next n₁
      refine Ends.bind (Manager.makes_cube n₁.1 (fit_cubic hl₁ fileVars)) fun c m₂ ⟨n₂, hc, _⟩ => ?_
      refine Ends.bind (Manager.makes_conj n₂.1 (n₂.holds (hbody e rfl)) hc)
        fun f m₃ ⟨n₃, hf, _⟩ => ?_
      refine Ends.bind ((hl₁.next (n₂.trans n₃)).makes_inDomains n₃.1)
        fun d m₄ ⟨n₄, hd, hdval⟩ => ?_
      refine Ends.bind (Manager.makes_conj n₄.1 (n₄.holds hf) hd) fun r m₅ ⟨n₅, hr, hrval⟩ => ?_
      refine ends_pure ⟨n₁.trans (n₂.trans (n₃.trans (n₄.trans n₅))), fun parts he => ?_⟩
      obtain rfl := Except.ok.inj he
      refine ⟨hr, fun ρ htrue => Layout.all_range_iff.mp ?_⟩
      have hboth : (m₄.eval ρ f && m₄.eval ρ d) = true := (hrval ρ).symm.trans htrue
      exact (hdval ρ).symm.trans (Bool.and_eq_true_iff.mp hboth).2

end Loading

end Factbase.Relation
