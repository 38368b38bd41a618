import Mathlib.Data.List.Basic

/-!
# Runs of labelled steps

A step relation `step i s s'` says that label `i` can take `s` to `s'`. A run is
the list of labels it took. The rules: an invariant of the steps holds along a
run, a property of the whole past is proved by extending runs at the end, and a
step-wise simulation lifts to runs.
-/

namespace UnixProgramming.Transition

variable {ι σ τ : Type*}

inductive Run (step : ι → σ → σ → Prop) : List ι → σ → σ → Prop where
  | nil {s} : Run step [] s s
  | cons {i is s s' s''} : step i s s' → Run step is s' s'' → Run step (i :: is) s s''

namespace Run

variable {step step' : ι → σ → σ → Prop} {is js : List ι} {s s' s'' : σ}

theorem single {i : ι} (h : step i s s') : Run step [i] s s' := .cons h .nil

theorem append (first : Run step is s s') (second : Run step js s' s'') :
    Run step (is ++ js) s s'' := by
  induction first with
  | nil => exact second
  | cons h _ ih => exact .cons h (ih second)

theorem snoc {i : ι} (run : Run step is s s') (h : step i s' s'') : Run step (is ++ [i]) s s'' :=
  run.append (single h)

theorem mono (run : Run step is s s') (h : ∀ i ∈ is, ∀ s s', step i s s' → step' i s s') :
    Run step' is s s' := by
  induction run with
  | nil => exact .nil
  | cons head _ ih =>
    exact .cons (h _ List.mem_cons_self _ _ head)
      (ih fun i later => h i (List.mem_cons_of_mem _ later))

/-- What the steps with the labels of a run keep, the run keeps. -/
theorem invariant_on {I : σ → Prop} (run : Run step is s s')
    (keep : ∀ i ∈ is, ∀ s s', I s → step i s s' → I s') (h : I s) : I s' := by
  induction run with
  | nil => exact h
  | cons head _ ih =>
    exact ih (fun i later => keep i (List.mem_cons_of_mem _ later))
      (keep _ List.mem_cons_self _ _ h head)

theorem invariant {I : σ → Prop} (keep : ∀ i s s', I s → step i s s' → I s')
    (run : Run step is s s') (h : I s) : I s' :=
  run.invariant_on (fun i _ => keep i) h

/-- With an invariant, the steps of a run may be seen as steps of another relation. -/
theorem upgrade {I : σ → Prop} (keep : ∀ i s s', I s → step i s s' → I s' ∧ step' i s s')
    (run : Run step is s s') (h : I s) : Run step' is s s' := by
  induction run with
  | nil => exact .nil
  | cons head _ ih =>
    obtain ⟨next, other⟩ := keep _ _ _ h head
    exact .cons other (ih next)

/-- A property of the whole past, established by extending runs at the end. -/
theorem past {P : List ι → σ → Prop} (start : P [] s)
    (extend : ∀ is i s' s'', Run step is s s' → P is s' → step i s' s'' → P (is ++ [i]) s'')
    (run : Run step is s s') : P is s' := by
  have general : ∀ {js is t t'}, Run step is t t' → Run step js s t → P js t → P (js ++ is) t' := by
    intro js is t t' run
    induction run generalizing js with
    | nil => exact fun _ h => by simpa using h
    | cons head _ ih =>
      intro before h
      simpa using ih (before.snoc head) (extend _ _ _ _ before h head)
  simpa using general run .nil start

/-- If every step of `spec` is matched by a step of `step`, so is every run. -/
theorem simulate {spec : ι → τ → τ → Prop} {R : σ → τ → Prop}
    (sim : ∀ i s t t', R s t → spec i t t' → ∃ s', step i s s' ∧ R s' t')
    {t t' : τ} (run : Run spec is t t') (related : R s t) : ∃ s', Run step is s s' ∧ R s' t' := by
  induction run generalizing s with
  | nil => exact ⟨s, .nil, related⟩
  | cons head _ ih =>
    obtain ⟨s₁, moved, related₁⟩ := sim _ _ _ _ related head
    obtain ⟨s₂, rest, related₂⟩ := ih related₁
    exact ⟨s₂, .cons moved rest, related₂⟩

/-- Two systems taking the same labels side by side. -/
theorem lockstep {spec : ι → τ → τ → Prop} {R : σ → τ → Prop}
    (keep : ∀ i s s' t t', R s t → step i s s' → spec i t t' → R s' t')
    {t t' : τ} (run : Run step is s s') (other : Run spec is t t') (related : R s t) : R s' t' := by
  induction run generalizing t with
  | nil =>
    cases other
    exact related
  | cons head _ ih =>
    cases other with
    | cons head' rest' => exact ih rest' (keep _ _ _ _ _ related head head')

end Run

end UnixProgramming.Transition
