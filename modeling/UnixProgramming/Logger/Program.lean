import UnixProgramming.Foundation.Interaction
import UnixProgramming.Logger.Line

/-!
# A monitored program

A program makes its calls one after the other and goes on by what it sees of each: the
result and, after a failure, `errno`. Under the logger the wrappers answer. The world is
what the answers depend on; the log is a file that nobody else looks at.
-/

namespace UnixProgramming.Logger

open Interaction Transition

/-- What a program sees of a call. -/
structure Answer where
  result : Int
  error : Option Int
  deriving DecidableEq

/-- What the library does at the moment, and what becomes of the world by a call of a real
function. -/
structure World (ω : Type) where
  library : ω → Library
  after : ω → RealCall → ω

/-- The world with `errno` and the lines of the log. -/
structure Monitored (ω : Type) where
  errno : Int
  world : ω
  log : List (List Char)

/-- `dprintf` writes the line. -/
def Libc.writes (libc : Libc) : Bool := (libc.getenv.bind libc.dprintf).isNone

namespace World

variable {ω : Type} (W : World ω)

/-- Without the logger the real functions answer themselves. -/
def plain : Service Call Answer ω := fun c w =>
  let libc := (W.library w).toLibc
  some (⟨c.result libc, (libc.real c.real).2⟩, W.after w c.real)

/-- Under the logger a wrapper answers, if it comes back. -/
def monitored : Service Call Answer (Monitored ω) := fun c m =>
  let lib := W.library m.world
  match (wrapper c).run lib.toLibc ⟨m.errno, []⟩ with
  | .ok v s => (c.line lib).map fun line =>
    (⟨v, (lib.real c.real).2.map fun _ => s.errno⟩,
      ⟨s.errno, s.calls.foldl W.after m.world, m.log ++ if lib.writes then [line] else []⟩)
  | .error _ _ => none

end World

section Transparency

variable {ω τ : Type} {W : World ω} {c : Call} {m m' : Monitored ω} {a : Answer}

theorem monitored_eq_some : W.monitored c m = some (a, m') ↔
    Loggable (W.library m.world).toLibc c ∧ ∃ line, c.line (W.library m.world) = some line ∧
      a = ⟨(wrapper c).passed ((W.library m.world).real c.real).1,
        ((W.library m.world).real c.real).2.map
          (lastFailure (W.library m.world).toLibc [c.real] (wrapper c).ending).getD⟩ ∧
      m' = ⟨(lastFailure (W.library m.world).toLibc [c.real] (wrapper c).ending).getD
          (c.errno (W.library m.world).toLibc m.errno),
        W.after m.world c.real, m.log ++ if (W.library m.world).writes then [line] else []⟩ := by
  constructor
  · intro answered
    cases ran : (wrapper c).run (W.library m.world).toLibc ⟨m.errno, []⟩ with
    | error fault s =>
      simp only [World.monitored, ran] at answered
      cases answered
    | ok v s =>
      simp only [World.monitored, ran] at answered
      rcases wrapper_run_ok.mp ran with ⟨loggable, rfl, rfl⟩
      rcases Option.map_eq_some_iff.mp answered with ⟨line, written, same⟩
      cases same
      refine ⟨loggable, line, written, ?_, rfl⟩
      refine congrArg (Answer.mk _) ?_
      rw [Call.errno]
      cases ((W.library m.world).real c.real).2 <;> rfl
  · rintro ⟨loggable, line, written, rfl, rfl⟩
    have ran := (@wrapper_run_ok _ _ c m.errno _).mpr ⟨loggable, rfl, rfl⟩
    simp only [World.monitored, ran, written, Option.map_some, Call.errno]
    cases ((W.library m.world).real c.real).2 <;> rfl

/-- The error of a call that fails is still in `errno` when the wrapper returns. -/
def Undisturbed (libc : Libc) (c : Call) : Prop :=
  ∀ e, (libc.real c.real).2 = some e → (lastFailure libc [c.real] (wrapper c).ending).getD e = e

/-- A world in which the first call gets 3, and the later ones 0. -/
def counted : World Nat where
  library w := quiet (if w = 0 then 3 else 0) none
  after w _ := w + 1

end Transparency

end UnixProgramming.Logger
