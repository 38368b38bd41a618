import Mathlib.Order.Defs.Unbundled

/-!
# Programs with state and failure

`EStateM` keeps the state on failure too. The first lemmas run the operations on
a state. `Within R m` says that every outcome of `m`, failed or not, is related
by `R` to the state before it, and `OnSuccess R m` says so of the others only; for a
reflexive and transitive `R` both are proved along the structure of the program. So is
`Commutes g m`: a change `g` of the state makes no difference to `m`.
`Simulates E R m m'` is for two programs, on related states.
-/

namespace UnixProgramming.Stateful

variable {ε σ α β : Type}

section Apply

@[simp] theorem bind_apply (m : EStateM ε σ α) (f : α → EStateM ε σ β) (s : σ) :
    (m >>= f) s = match m s with
      | .ok a s' => f a s'
      | .error e s' => .error e s' := (rfl)

@[simp] theorem map_apply (f : α → β) (m : EStateM ε σ α) (s : σ) :
    (f <$> m) s = match m s with
      | .ok a s' => .ok (f a) s'
      | .error e s' => .error e s' := (rfl)

@[simp] theorem pure_apply (a : α) (s : σ) : (pure a : EStateM ε σ α) s = .ok a s := (rfl)

@[simp] theorem get_apply (s : σ) : (get : EStateM ε σ σ) s = .ok s s := (rfl)

@[simp] theorem modify_apply (f : σ → σ) (s : σ) :
    (modify f : EStateM ε σ Unit) s = .ok () (f s) := (rfl)

@[simp] theorem throw_apply (e : ε) (s : σ) : (throw e : EStateM ε σ α) s = .error e s := (rfl)

theorem bind_ok {m : EStateM ε σ α} {f : α → EStateM ε σ β} {s s' : σ} {b : β} :
    (m >>= f) s = .ok b s' ↔ ∃ a t, m s = .ok a t ∧ f a t = .ok b s' := by
  rw [bind_apply]
  cases m s with
  | ok a t =>
    constructor
    · intro run
      exact ⟨a, t, rfl, run⟩
    · rintro ⟨_, _, first, rest⟩
      cases first
      exact rest
  | error e t => simp

end Apply

section Failure

theorem except_bind_ok {m : Except ε α} {f : α → Except ε β} {b : β} :
    m >>= f = .ok b ↔ ∃ a, m = .ok a ∧ f a = .ok b := by
  cases m with
  | ok a =>
    constructor
    · intro run
      exact ⟨a, rfl, run⟩
    · rintro ⟨_, first, rest⟩
      cases first
      exact rest
  | error e =>
    constructor
    · intro run
      cases run
    · rintro ⟨_, first, _⟩
      cases first

/-- A traversal succeeds with good results if every element does. -/
theorem except_mapM_ok {f : α → Except ε β} {P : β → Prop} {xs : List α} :
    (∃ ys, xs.mapM f = .ok ys ∧ ∀ y ∈ ys, P y) ↔ ∀ x ∈ xs, ∃ y, f x = .ok y ∧ P y := by
  induction xs with
  | nil => simp [pure, Except.pure]
  | cons x xs ih =>
    rw [List.forall_mem_cons, ← ih]
    simp only [List.mapM_cons, except_bind_ok]
    constructor
    · rintro ⟨_, ⟨y, first, ys, rest, collected⟩, good⟩
      cases collected
      obtain ⟨goodFirst, goodRest⟩ := List.forall_mem_cons.mp good
      exact ⟨⟨y, first, goodFirst⟩, ys, rest, goodRest⟩
    · rintro ⟨⟨y, first, goodFirst⟩, ys, rest, goodRest⟩
      exact ⟨y :: ys, ⟨y, first, ys, rest, rfl⟩, List.forall_mem_cons.mpr ⟨goodFirst, goodRest⟩⟩

end Failure

/-- The state an outcome leaves behind. -/
def final : EStateM.Result ε σ α → σ
  | .ok _ s => s
  | .error _ s => s

def Within (R : σ → σ → Prop) (m : EStateM ε σ α) : Prop := ∀ s, R s (final (m s))

section Rules

variable {R : σ → σ → Prop}

theorem Within.ok {m : EStateM ε σ α} (h : Within R m) {s s' : σ} {a : α} (run : m s = .ok a s') :
    R s s' := by
  have related := h s
  rwa [run] at related

theorem Within.pure [Std.Refl R] (a : α) : Within R (pure a : EStateM ε σ α) :=
  fun s => Std.Refl.refl s

theorem Within.throw [Std.Refl R] (e : ε) : Within R (throw e : EStateM ε σ α) :=
  fun s => Std.Refl.refl s

theorem Within.get [Std.Refl R] : Within R (get : EStateM ε σ σ) := fun s => Std.Refl.refl s

theorem Within.modify {f : σ → σ} (h : ∀ s, R s (f s)) :
    Within R (modify f : EStateM ε σ Unit) := h

theorem Within.bind [IsTrans σ R] {m : EStateM ε σ α} {f : α → EStateM ε σ β}
    (first : Within R m) (second : ∀ a, Within R (f a)) : Within R (m >>= f) := by
  intro s
  have before := first s
  rw [bind_apply]
  cases h : m s with
  | ok a s' =>
    rw [h] at before
    exact IsTrans.trans _ _ _ before (second a s')
  | error e s' =>
    rw [h] at before
    exact before

theorem Within.forIn [Std.Refl R] [IsTrans σ R] {γ : Type} {f : γ → β → EStateM ε σ (ForInStep β)}
    (body : ∀ c b, Within R (f c b)) (cs : List γ) (b : β) : Within R (forIn cs b f) := by
  induction cs generalizing b with
  | nil => exact .pure b
  | cons c cs ih =>
    rw [List.forIn_cons]
    refine .bind (body c b) fun r => ?_
    cases r with
    | done b' => exact .pure b'
    | yield b' => exact ih b'

end Rules

/-- Where the program succeeds, the states before and after are related. -/
def OnSuccess (R : σ → σ → Prop) (m : EStateM ε σ α) : Prop := ∀ s a s', m s = .ok a s' → R s s'

section OnSuccessRules

variable {R : σ → σ → Prop}

theorem Within.onSuccess {m : EStateM ε σ α} (h : Within R m) : OnSuccess R m := fun _ _ _ ran => h.ok ran

theorem OnSuccess.throw (e : ε) : OnSuccess R (throw e : EStateM ε σ α) := fun _ _ _ ran => by cases ran

theorem OnSuccess.bind [IsTrans σ R] {m : EStateM ε σ α} {f : α → EStateM ε σ β}
    (first : OnSuccess R m) (second : ∀ a, OnSuccess R (f a)) : OnSuccess R (m >>= f) := by
  intro s b s' ran
  rcases bind_ok.mp ran with ⟨a, t, ran₁, ran₂⟩
  exact IsTrans.trans _ _ _ (first s a t ran₁) (second a t b s' ran₂)

end OnSuccessRules

/-- The program succeeds from every state. -/
def Succeeds (m : EStateM ε σ α) : Prop := ∀ s, ∃ a s', m s = .ok a s'

section SucceedsRules

theorem Succeeds.pure (a : α) : Succeeds (pure a : EStateM ε σ α) := fun s => ⟨a, s, rfl⟩

theorem Succeeds.get : Succeeds (get : EStateM ε σ σ) := fun s => ⟨s, s, rfl⟩

theorem Succeeds.modify (f : σ → σ) : Succeeds (modify f : EStateM ε σ Unit) := fun s => ⟨(), f s, rfl⟩

theorem Succeeds.bind {m : EStateM ε σ α} {f : α → EStateM ε σ β} (first : Succeeds m)
    (second : ∀ a, Succeeds (f a)) : Succeeds (m >>= f) := by
  intro s
  obtain ⟨a, s', ran⟩ := first s
  rw [bind_apply, ran]
  exact second a s'

theorem Succeeds.forIn {γ : Type} {f : γ → β → EStateM ε σ (ForInStep β)}
    (body : ∀ c b, Succeeds (f c b)) (cs : List γ) (b : β) : Succeeds (forIn cs b f) := by
  induction cs generalizing b with
  | nil => exact .pure b
  | cons c cs ih =>
    rw [List.forIn_cons]
    refine .bind (body c b) fun r => ?_
    cases r with
    | done b' => exact .pure b'
    | yield b' => exact ih b'

end SucceedsRules

/-- Where `m` succeeds, `m'` does the same. -/
def Extends (m m' : EStateM ε σ α) : Prop := ∀ s a s', m s = .ok a s' → m' s = .ok a s'

section ExtendsRules

theorem Extends.refl (m : EStateM ε σ α) : Extends m m := fun _ _ _ ran => ran

theorem Extends.bind {m m' : EStateM ε σ α} {f f' : α → EStateM ε σ β} (first : Extends m m')
    (second : ∀ a, Extends (f a) (f' a)) : Extends (m >>= f) (m' >>= f') := by
  intro s b s' ran
  obtain ⟨a, t, ran₁, ran₂⟩ := bind_ok.mp ran
  exact bind_ok.mpr ⟨a, t, first s a t ran₁, second a t b s' ran₂⟩

theorem Extends.throw (e : ε) (m : EStateM ε σ α) : Extends (throw e) m :=
  fun _ _ _ ran => by cases ran

end ExtendsRules

/-- The outcome with another state. -/
def mapState (g : σ → σ) : EStateM.Result ε σ α → EStateM.Result ε σ α
  | .ok a s => .ok a (g s)
  | .error e s => .error e (g s)

/-- It makes no difference whether the state is changed by `g` before the program or after. -/
def Commutes (g : σ → σ) (m : EStateM ε σ α) : Prop := ∀ s, m (g s) = mapState g (m s)

section CommutesRules

variable {g : σ → σ}

theorem Commutes.pure (a : α) : Commutes g (pure a : EStateM ε σ α) := fun _ => rfl

theorem Commutes.throw (e : ε) : Commutes g (throw e : EStateM ε σ α) := fun _ => rfl

theorem Commutes.modify {f : σ → σ} (swap : ∀ s, f (g s) = g (f s)) :
    Commutes g (modify f : EStateM ε σ Unit) :=
  fun s => congrArg (EStateM.Result.ok ()) (swap s)

theorem Commutes.bind {m : EStateM ε σ α} {f : α → EStateM ε σ β} (first : Commutes g m)
    (second : ∀ a, Commutes g (f a)) : Commutes g (m >>= f) := by
  intro s
  rw [bind_apply, bind_apply, first s]
  cases m s with
  | ok a s' => exact second a s'
  | error e s' => rfl

/-- A program that reads of the state only what `g` leaves alone. -/
theorem Commutes.reads {f : σ → EStateM ε σ α} (blind : ∀ s, f (g s) = f s)
    (rest : ∀ s, Commutes g (f s)) : Commutes g (get >>= f) := by
  intro s
  rw [bind_apply, bind_apply, get_apply, get_apply]
  change f (g s) (g s) = mapState g (f s s)
  rw [blind]
  exact rest s s

theorem Commutes.forIn {γ : Type} {f : γ → β → EStateM ε σ (ForInStep β)}
    (body : ∀ c b, Commutes g (f c b)) (cs : List γ) (b : β) : Commutes g (forIn cs b f) := by
  induction cs generalizing b with
  | nil => exact .pure b
  | cons c cs ih =>
    rw [List.forIn_cons]
    refine .bind (body c b) fun r => ?_
    cases r with
    | done b' => exact .pure b'
    | yield b' => exact ih b'

end CommutesRules

/-- Outcomes of the same kind, with related states. -/
inductive Matching {ε ε' σ τ α : Type} (E : ε → ε' → Prop) (R : σ → τ → Prop) :
    EStateM.Result ε σ α → EStateM.Result ε' τ α → Prop where
  | ok {a s t} : R s t → Matching E R (.ok a s) (.ok a t)
  | error {e e' s t} : E e e' → R s t → Matching E R (.error e s) (.error e' t)

/-- From related states the two programs have matching outcomes. -/
def Simulates {ε ε' σ τ α : Type} (E : ε → ε' → Prop) (R : σ → τ → Prop) (m : EStateM ε σ α)
    (m' : EStateM ε' τ α) : Prop := ∀ s t, R s t → Matching E R (m s) (m' t)

section SimulatesRules

variable {ε' τ : Type} {E : ε → ε' → Prop} {R : σ → τ → Prop}

theorem Simulates.pure (a : α) : Simulates E R (pure a) (pure a) := fun _ _ related => .ok related

theorem Simulates.throw {e : ε} {e' : ε'} (same : E e e') :
    Simulates E R (throw e : EStateM ε σ α) (throw e' : EStateM ε' τ α) :=
  fun _ _ related => .error same related

theorem Simulates.modify {f : σ → σ} {f' : τ → τ} (keeps : ∀ s t, R s t → R (f s) (f' t)) :
    Simulates E R (modify f) (modify f') := fun s t related => .ok (keeps s t related)

theorem Simulates.bind {m : EStateM ε σ α} {m' : EStateM ε' τ α} {f : α → EStateM ε σ β}
    {f' : α → EStateM ε' τ β} (first : Simulates E R m m') (second : ∀ a, Simulates E R (f a) (f' a)) :
    Simulates E R (m >>= f) (m' >>= f') := by
  intro s t related
  have here := first s t related
  rw [bind_apply, bind_apply]
  cases ran : m s with
  | ok a s' =>
    rw [ran] at here
    cases ran' : m' t with
    | ok a' t' =>
      rw [ran'] at here
      cases here with
      | ok related' => exact second a s' t' related'
    | error e t' =>
      rw [ran'] at here
      cases here
  | error e s' =>
    rw [ran] at here
    cases ran' : m' t with
    | ok a t' =>
      rw [ran'] at here
      cases here
    | error e' t' =>
      rw [ran'] at here
      cases here with
      | error same related' => exact .error same related'

/-- Programs that go on with what they read of related states. -/
theorem Simulates.reads {f : σ → EStateM ε σ α} {f' : τ → EStateM ε' τ α}
    (rest : ∀ s t, R s t → Simulates E R (f s) (f' t)) : Simulates E R (get >>= f) (get >>= f') :=
  fun s t related => rest s t related s t related

end SimulatesRules

end UnixProgramming.Stateful
