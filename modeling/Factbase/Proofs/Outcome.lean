import Mathlib.Data.List.Forall2

/-!
# Outcomes of programs

A program over a state comes to a result or stops with a failure. The statements about programs
in this library are about the result, and they promise that there is one:

* `Ends act s post`: started in `s`, the program `act` comes to a result, and `post` holds of
  the result and of the state behind it;
* `Ends.bind` and `ends_bind` run one program behind another;
* `Ends.foldlM` is the loop rule: what holds before the first element and is kept by every step
  holds behind the last one;
* `Upholds i act s post`: the program keeps `i` even where it stops;
* `Spares i act s post`: the program keeps `i` where it stops;
* `after`, `answer`: the state behind a program and what it came to, also where it stops;
* `run_ok_of_bind` takes a program with a result apart;
* `ok_of_bind`, `ok_of_unless` take a question with an answer apart, `bind_eq_ok` and
  `unless_eq_ok` put one together;
* `mapM_eq_ok_iff`, `mapM_eq_ok`, `exists_mapM_eq_ok`, `mapM_eq_error`: a list of questions and its
  answers;
* `Lists next as s`: started in `s`, the enumeration answers with `as` and then with nothing.
-/

namespace Factbase

variable {ε σ α β : Type}

/-! ## 1. Programs -/

/-- The program comes to a result, and `post` holds of the result and of the final state. -/
def Ends (act : EStateM ε σ α) (s : σ) (post : α → σ → Prop) : Prop :=
  ∃ a s', act s = .ok a s' ∧ post a s'

theorem ends_pure {a : α} {s : σ} {post : α → σ → Prop} (h : post a s) :
    Ends (pure a : EStateM ε σ α) s post :=
  ⟨a, s, rfl, h⟩

theorem Ends.mono {act : EStateM ε σ α} {s : σ} {post weaker : α → σ → Prop}
    (h : Ends act s post) (hw : ∀ a s', post a s' → weaker a s') : Ends act s weaker := by
  obtain ⟨a, s', run, hp⟩ := h
  exact ⟨a, s', run, hw a s' hp⟩

/-- One program behind another. -/
theorem Ends.bind {act : EStateM ε σ α} {next : α → EStateM ε σ β} {s : σ}
    {q : α → σ → Prop} {post : β → σ → Prop} (h : Ends act s q)
    (hn : ∀ a s', q a s' → Ends (next a) s' post) : Ends (act >>= next) s post := by
  obtain ⟨a, s', run, hq⟩ := h
  obtain ⟨b, s'', run', hp⟩ := hn a s' hq
  refine ⟨b, s'', ?_, hp⟩
  show EStateM.bind act next s = .ok b s''
  rw [EStateM.bind, run]
  exact run'

/-- Behind a step with a known outcome the rest runs from the state reached. -/
theorem ends_bind {act : EStateM ε σ α} {next : α → EStateM ε σ β} {s s' : σ} {a : α}
    {post : β → σ → Prop} (run : act s = .ok a s') (h : Ends (next a) s' post) :
    Ends (act >>= next) s post :=
  Ends.bind (q := fun b t => b = a ∧ t = s') ⟨a, s', run, rfl, rfl⟩ fun _ _ ⟨eb, et⟩ => by
    subst eb et
    exact h

theorem bind_of_ok {act : EStateM ε σ α} {next : α → EStateM ε σ β} {s s' : σ} {a : α}
    (run : act s = .ok a s') : (act >>= next) s = next a s' := by
  show EStateM.bind act next s = _
  rw [EStateM.bind, run]

/-- Behind steps with the same outcome the rest runs alike. -/
theorem bind_congr_run {act act' : EStateM ε σ α} {next : α → EStateM ε σ β} {s : σ}
    (run : act s = act' s) : (act >>= next) s = (act' >>= next) s := by
  show EStateM.bind act next s = EStateM.bind act' next s
  rw [EStateM.bind, EStateM.bind, run]

/-- It is enough that the rest runs alike from where the first step has led. -/
theorem bind_congr_next {act : EStateM ε σ α} {next next' : α → EStateM ε σ β} {s : σ}
    (same : ∀ a s', act s = .ok a s' → next a s' = next' a s') :
    (act >>= next) s = (act >>= next') s := by
  show EStateM.bind act next s = EStateM.bind act next' s
  rw [EStateM.bind, EStateM.bind]
  cases run : act s with
  | ok a s' => exact same a s' run
  | error e s' => rfl

/-- Behind a step that stops nothing is run. -/
theorem bind_eq_error {act : EStateM ε σ α} {next : α → EStateM ε σ β} {s s' : σ} {e : ε}
    (run : act s = .error e s') : (act >>= next) s = .error e s' := by
  show EStateM.bind act next s = .error e s'
  rw [EStateM.bind, run]

/-- A condition that fails lets the rest run. -/
theorem ends_unless {c : Prop} [Decidable c] {stop : EStateM ε σ α} {act : EStateM ε σ α} {s : σ}
    {post : α → σ → Prop} (hc : ¬ c) (h : Ends act s post) :
    Ends (if c then stop else act) s post := by
  rw [if_neg hc]
  exact h

/-- **The loop rule**: an invariant that holds at the start and that every step keeps holds at
the end. The invariant may speak of the elements still to come. -/
theorem Ends.foldlM {f : β → α → EStateM ε σ β} {i : List α → β → σ → Prop}
    (keep : ∀ x xs b s, i (x :: xs) b s → Ends (f b x) s (i xs)) :
    ∀ (xs : List α) (b : β) (s : σ), i xs b s → Ends (xs.foldlM f b) s (i [])
  | [], _, _, h => ends_pure h
  | x :: xs, b, s, h => by
      rw [List.foldlM_cons]
      exact (keep x xs b s h).bind fun b' s' h' => foldlM keep xs b' s' h'

/-- **The loop rule where results are collected.** The invariant speaks of the elements still to
come and of the results so far. -/
theorem Ends.mapM {f : α → EStateM ε σ β} {i : List α → List β → σ → Prop}
    (keep : ∀ x xs ys s, i (x :: xs) ys s → Ends (f x) s fun y s' => i xs (ys ++ [y]) s') :
    ∀ (xs : List α) (ys : List β) (s : σ), i xs ys s →
      Ends (xs.mapM f) s fun zs s' => i [] (ys ++ zs) s'
  | [], ys, s, h => by
      rw [List.mapM_nil]
      exact ends_pure (by rwa [List.append_nil])
  | x :: xs, ys, s, h => by
      rw [List.mapM_cons]
      refine (keep x xs ys s h).bind fun y s' h' => ?_
      refine (mapM keep xs _ s' h').bind fun zs s'' h'' => ends_pure ?_
      rwa [List.append_assoc] at h''

/-- The same programs in the same order. -/
theorem mapM_congr {f g : α → EStateM ε σ β} : ∀ {xs : List α}, (∀ x ∈ xs, f x = g x) →
    xs.mapM f = xs.mapM g
  | [], _ => rfl
  | x :: xs, same => by
      obtain ⟨hx, hxs⟩ := List.forall_mem_cons.mp same
      rw [List.mapM_cons, List.mapM_cons, hx, mapM_congr hxs]

/-- The program keeps an invariant, whether it comes to a result or stops, and `post` holds where
it comes to a result. -/
def Upholds (i : σ → Prop) (act : EStateM ε σ α) (s : σ) (post : α → σ → Prop) : Prop :=
  match act s with
  | .ok a s' => i s' ∧ post a s'
  | .error _ s' => i s'

section Upholds

variable {i : σ → Prop} {act : EStateM ε σ α} {s : σ} {post : α → σ → Prop}

theorem upholds_of_ok {a : α} {s' : σ} (run : act s = .ok a s') (hi : i s') (hp : post a s') :
    Upholds i act s post := by
  rw [Upholds, run]
  exact ⟨hi, hp⟩

theorem upholds_of_error {e : ε} {s' : σ} (run : act s = .error e s') (hi : i s') :
    Upholds i act s post := by
  rw [Upholds, run]
  exact hi

theorem upholds_pure {a : α} (hi : i s) (hp : post a s) :
    Upholds i (pure a : EStateM ε σ α) s post :=
  ⟨hi, hp⟩

theorem Upholds.mono {weaker : α → σ → Prop} (h : Upholds i act s post)
    (hw : ∀ a s', i s' → post a s' → weaker a s') : Upholds i act s weaker := by
  cases run : act s with
  | ok a s' =>
      rw [Upholds, run] at h
      exact upholds_of_ok run h.1 (hw a s' h.1 h.2)
  | error e s' =>
      rw [Upholds, run] at h
      exact upholds_of_error run h

theorem Ends.upholds {p : α → σ → Prop} (h : Ends act s p)
    (hi : ∀ a s', p a s' → i s' ∧ post a s') : Upholds i act s post := by
  obtain ⟨a, s', run, hp⟩ := h
  exact upholds_of_ok run (hi a s' hp).1 (hi a s' hp).2

/-- One program behind another keeps what both keep. -/
theorem Upholds.bind {next : α → EStateM ε σ β} {p : β → σ → Prop} (h : Upholds i act s post)
    (hn : ∀ a s', i s' → post a s' → Upholds i (next a) s' p) : Upholds i (act >>= next) s p := by
  unfold Upholds
  show match EStateM.bind act next s with
    | .ok a s' => i s' ∧ p a s'
    | .error _ s' => i s'
  rw [EStateM.bind]
  cases run : act s with
  | ok a s' =>
      rw [Upholds, run] at h
      exact hn a s' h.1 h.2
  | error e s' =>
      rw [Upholds, run] at h
      exact h

/-- The result may be forgotten. -/
theorem Upholds.forget (h : Upholds i act s fun _ _ => True) :
    Upholds i (do let _ ← act) s fun _ _ => True :=
  h.bind fun _ _ hi _ => upholds_pure hi trivial

/-- What is true of every outcome is true of a result. -/
theorem Upholds.of_ok {a : α} {s' : σ} (h : Upholds i act s post) (run : act s = .ok a s') :
    i s' ∧ post a s' := by
  rw [Upholds, run] at h
  exact h

theorem Upholds.of_error {e : ε} {s' : σ} (h : Upholds i act s post) (run : act s = .error e s') :
    i s' := by
  rw [Upholds, run] at h
  exact h

/-- The state behind a program, whether it came to a result or stopped. -/
def after (act : EStateM ε σ α) (s : σ) : σ :=
  match act s with
  | .ok _ s' | .error _ s' => s'

/-- What a program comes to, or the failure that it stops with. -/
def answer (act : EStateM ε σ α) (s : σ) : Except ε α :=
  match act s with
  | .ok a _ => .ok a
  | .error e _ => .error e

theorem Upholds.after (h : Upholds i act s post) : i (Factbase.after act s) := by
  unfold Upholds at h
  unfold Factbase.after
  cases run : act s with
  | ok a s' => rw [run] at h; exact h.1
  | error e s' => rw [run] at h; exact h

/-- Where the program stops, it has kept an invariant; where it comes to a result, `post` holds. -/
def Spares (i : σ → Prop) (act : EStateM ε σ α) (s : σ) (post : α → σ → Prop) : Prop :=
  match act s with
  | .ok a s' => post a s'
  | .error _ s' => i s'

theorem spares_of_ok {a : α} {s' : σ} (run : act s = .ok a s') (hp : post a s') :
    Spares i act s post := by
  rw [Spares, run]
  exact hp

theorem spares_of_error {e : ε} {s' : σ} (run : act s = .error e s') (hi : i s') :
    Spares i act s post := by
  rw [Spares, run]
  exact hi

theorem Spares.of_ok {a : α} {s' : σ} (h : Spares i act s post) (run : act s = .ok a s') :
    post a s' := by
  rw [Spares, run] at h
  exact h

theorem Spares.of_error {e : ε} {s' : σ} (h : Spares i act s post) (run : act s = .error e s') :
    i s' := by
  rw [Spares, run] at h
  exact h

theorem Spares.mono {weaker : α → σ → Prop} (h : Spares i act s post)
    (hw : ∀ a s', post a s' → weaker a s') : Spares i act s weaker := by
  cases run : act s with
  | ok a s' => exact spares_of_ok run (hw a s' (h.of_ok run))
  | error e s' => exact spares_of_error run (h.of_error run)

/-- What comes last may do away with the invariant, where it does not stop. -/
theorem Upholds.spares_bind {next : α → EStateM ε σ β} {p : β → σ → Prop}
    (h : Upholds i act s post) (hn : ∀ a s', i s' → post a s' → Spares i (next a) s' p) :
    Spares i (act >>= next) s p := by
  cases run : act s with
  | ok a s' =>
      have hnext := hn a s' (h.of_ok run).1 (h.of_ok run).2
      unfold Spares at hnext ⊢
      rwa [bind_of_ok run]
  | error e s' => exact spares_of_error (bind_eq_error run) (h.of_error run)

theorem Upholds.spares (h : Upholds i act s post) : Spares i act s fun a s' => i s' ∧ post a s' := h

theorem Spares.upholds {p : α → σ → Prop} (h : Spares i act s p)
    (hi : ∀ a s', p a s' → i s' ∧ post a s') : Upholds i act s post :=
  h.mono hi

end Upholds

/-- A program has one outcome. -/
theorem Ends.of_ok {act : EStateM ε σ α} {s s' : σ} {a : α} {post : α → σ → Prop}
    (h : Ends act s post) (run : act s = .ok a s') : post a s' := by
  obtain ⟨b, t, run', hp⟩ := h
  rw [run] at run'
  obtain ⟨rfl, rfl⟩ := EStateM.Result.ok.inj run'
  exact hp

/-- A program that comes to a result has come to one in each of its parts. -/
theorem run_ok_of_bind {act : EStateM ε σ α} {next : α → EStateM ε σ β} {s t : σ} {b : β}
    (h : (act >>= next) s = .ok b t) : ∃ a s', act s = .ok a s' ∧ next a s' = .ok b t := by
  change EStateM.bind act next s = .ok b t at h
  rw [EStateM.bind] at h
  cases run : act s with
  | ok a s' => rw [run] at h; exact ⟨a, s', rfl, h⟩
  | error e s' => rw [run] at h; cases h

/-- A program whose result is known has come to it. -/
theorem ok_of_run' {act : EStateM ε σ α} {s : σ} {a : α} (h : EStateM.run' act s = some a) :
    ∃ s', act s = .ok a s' := by
  delta EStateM.run' EStateM.run at h
  cases run : act s with
  | ok b s' =>
      rw [run] at h
      exact ⟨s', by rw [Option.some.inj h]⟩
  | error e s' =>
      rw [run] at h
      cases h

/-- A program that comes to a result does not come to none. -/
theorem run'_ne_none {act : EStateM ε σ α} {s s' : σ} {a : α} (run : act s = .ok a s') :
    EStateM.run' act s ≠ none := by
  delta EStateM.run' EStateM.run
  rw [run]
  exact Option.some_ne_none a

/-! ## 2. Questions -/

/-- A question that gets an answer gets one in each of its parts. -/
theorem ok_of_bind {x : Except ε α} {f : α → Except ε β} {b : β} (h : (x >>= f) = .ok b) :
    ∃ a, x = .ok a ∧ f a = .ok b := by
  cases x with
  | error e => cases h
  | ok a => exact ⟨a, rfl, h⟩

/-- A question that gets no answer gets none in one of its parts. -/
theorem error_of_bind {x : Except ε α} {f : α → Except ε β} {e : ε} (h : (x >>= f) = .error e) :
    x = .error e ∨ ∃ a, x = .ok a ∧ f a = .error e := by
  cases x with
  | error stopped => exact .inl (congrArg _ (Except.error.inj h))
  | ok a => exact .inr ⟨a, rfl, h⟩

/-- A question whose parts get answers gets one. -/
theorem bind_eq_ok {x : Except ε α} {f : α → Except ε β} {a : α} {b : β} (hx : x = .ok a)
    (hf : f a = .ok b) : (x >>= f) = .ok b := by
  rw [hx]
  exact hf

/-- A question that is not stopped gets the answer of the rest. -/
theorem unless_eq_ok {c : Prop} [Decidable c] {stop x : Except ε β} {b : β} (hc : ¬ c)
    (h : x = .ok b) : (if c then stop else x) = .ok b := by
  rw [if_neg hc]
  exact h

/-- A question that gets an answer was not stopped. -/
theorem ok_of_unless {c : Prop} [Decidable c] {e : ε} {f : α → Except ε β} {x : Except ε β} {b : β}
    (h : (if c then (throw e : Except ε α) >>= f else x) = .ok b) : ¬ c ∧ x = .ok b := by
  by_cases hc : c
  · rw [if_pos hc] at h
    cases h
  · rw [if_neg hc] at h
    exact ⟨hc, h⟩

/-- Renaming the failures of a question leaves its answers. -/
theorem ok_of_mapError {ε' : Type} {f : ε → ε'} {x : Except ε α} {a : α}
    (h : x.mapError f = .ok a) : x = .ok a := by
  cases x with
  | error e => cases h
  | ok b => exact congrArg Except.ok (Except.ok.inj h)

/-- What is true of the only element is true wherever there is one. -/
theorem forall_getElem?_singleton {p : Nat → α → Prop} {x : α} (hx : p 0 x) :
    ∀ i y, [x][i]? = some y → p i y
  | 0, _, h => Option.some.inj h ▸ hx
  | _ + 1, _, h => by cases h

/-- Elements at the same place of two lists that correspond. -/
theorem exists_of_forall₂ {r : α → β → Prop} {xs : List α} {ys : List β}
    (h : List.Forall₂ r xs ys) {i : Nat} {x : α} (hx : xs[i]? = some x) :
    ∃ y, ys[i]? = some y ∧ r x y := by
  induction h generalizing i with
  | nil => cases hx
  | cons hhead _ ih =>
      cases i with
      | zero =>
          obtain rfl := Option.some.inj hx
          exact ⟨_, rfl, hhead⟩
      | succ i => exact ih hx

/-- Questions that all get an answer. -/
theorem mapM_eq_ok_iff {f : α → Except ε β} : ∀ {xs : List α} {ys : List β},
    xs.mapM f = .ok ys ↔ List.Forall₂ (fun x y => f x = .ok y) xs ys
  | [], ys => by
      rw [List.forall₂_nil_left_iff]
      exact ⟨fun h => (Except.ok.inj h).symm, fun h => h ▸ rfl⟩
  | x :: xs, ys => by
      rw [List.mapM_cons, List.forall₂_cons_left_iff]
      constructor
      · intro h
        obtain ⟨y, hy, h⟩ := ok_of_bind h
        obtain ⟨zs, hzs, h⟩ := ok_of_bind h
        exact ⟨y, zs, hy, mapM_eq_ok_iff.mp hzs, (Except.ok.inj h).symm⟩
      · rintro ⟨y, zs, hy, hzs, rfl⟩
        exact bind_eq_ok hy (bind_eq_ok (mapM_eq_ok_iff.mpr hzs) rfl)

/-- A question asked of every element of a list is answered where each answer is known. -/
theorem mapM_eq_ok {f : α → Except ε β} {g : α → β} {xs : List α} (h : ∀ x ∈ xs, f x = .ok (g x)) :
    xs.mapM f = .ok (xs.map g) := by
  induction xs with
  | nil => rfl
  | cons x xs ih =>
      rw [List.mapM_cons, h x List.mem_cons_self, ih fun y hy => h y (List.mem_cons_of_mem _ hy)]
      rfl

/-- A question that has an answer for every element of a list is answered. -/
theorem exists_mapM_eq_ok {f : α → Except ε β} {xs : List α} (h : ∀ x ∈ xs, ∃ y, f x = .ok y) :
    ∃ ys, xs.mapM f = .ok ys := by
  induction xs with
  | nil => exact ⟨[], rfl⟩
  | cons x xs ih =>
      obtain ⟨⟨y, hy⟩, hrest⟩ := List.forall_mem_cons.mp h
      obtain ⟨ys, hys⟩ := ih hrest
      refine ⟨y :: ys, ?_⟩
      rw [List.mapM_cons]
      exact bind_eq_ok hy (bind_eq_ok hys rfl)

/-- A question that has no answer for some element fails with the error of one of them. -/
theorem mapM_eq_error {f : α → Except ε β} {xs : List α} (h : ∃ x ∈ xs, ∀ y, f x ≠ .ok y) :
    ∃ e, xs.mapM f = .error e ∧ ∃ x ∈ xs, f x = .error e := by
  induction xs with
  | nil =>
      obtain ⟨_, hx, _⟩ := h
      exact absurd hx List.not_mem_nil
  | cons x xs ih =>
      rw [List.mapM_cons]
      cases hx : f x with
      | error e => exact ⟨e, rfl, x, List.mem_cons_self, hx⟩
      | ok y =>
          have hrest : ∃ x ∈ xs, ∀ y, f x ≠ .ok y := by
            obtain ⟨z, hz, hno⟩ := h
            rcases List.mem_cons.mp hz with rfl | hz
            · exact absurd hx (hno y)
            · exact ⟨z, hz, hno⟩
          obtain ⟨e, run, z, hz, he⟩ := ih hrest
          exact ⟨e, by rw [run]; rfl, z, List.mem_cons_of_mem _ hz, he⟩

/-! ## 3. Enumerations -/

/-- The enumeration answers with exactly these elements, one by one, and from then on with none. -/
def Lists (next : σ → Except ε (Option α × σ)) : List α → σ → Prop
  | [], s => ∃ s', next s = .ok (none, s') ∧ next s' = .ok (none, s')
  | a :: as, s => ∃ s', next s = .ok (some a, s') ∧ Lists next as s'

/-- The first answer and the rest, also at the end. -/
theorem Lists.step {next : σ → Except ε (Option α × σ)} {as : List α} {s : σ}
    (h : Lists next as s) : ∃ s', next s = .ok (as.head?, s') ∧ Lists next as.tail s' := by
  cases as with
  | nil =>
      obtain ⟨s', run, run'⟩ := h
      exact ⟨s', run, s', run', run'⟩
  | cons a as => exact h

end Factbase
