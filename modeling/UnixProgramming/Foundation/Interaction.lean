import UnixProgramming.Foundation.Transition

/-!
# A client and its service

A client asks questions and goes on by the answers alone. So a service may take the place
of another one as long as it gives the same answers, whatever else it does to its state.
-/

namespace UnixProgramming.Interaction

open Transition

variable {Q A τ σ ρ : Type*}

/-- What the client asks in a state, if it is not done, and where an answer takes it. -/
structure Client (Q A τ : Type*) where
  asks : τ → Option Q
  resume : τ → A → τ

/-- A service answers a question, or breaks down. -/
abbrev Service (Q A σ : Type*) := Q → σ → Option (A × σ)

namespace Client

/-- One question with its answer. -/
def Step (client : Client Q A τ) (service : Service Q A σ) (qa : Q × A) (s s' : τ × σ) : Prop :=
  client.asks s.1 = some qa.1 ∧ service qa.1 s.2 = some (qa.2, s'.2) ∧ s'.1 = client.resume s.1 qa.2

variable {client : Client Q A τ} {service : Service Q A σ} {spec : Service Q A ρ} {R : σ → ρ → Prop}
  {Safe : Q → ρ → Prop} {trace : List (Q × A)} {x x' : τ × ρ} {y : τ × σ}

end Client

end UnixProgramming.Interaction
