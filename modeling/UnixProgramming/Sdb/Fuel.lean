import UnixProgramming.Sdb.Command

/-!
# More fuel

The fuel of a command bounds its waits and its instruction sweep. A command that comes
back with some fuel comes back with more fuel in the same way, so a step of the debugger
leads to one world.
-/

namespace UnixProgramming.Sdb

open Memory Stateful

variable {κ : Type}

theorem Program.answer_more {p : Program κ} {n : Nat} {how : Resume} {t : Tracee κ} {e : Event κ}
    (answer : p.answer n how t = some e) (k : Nat) : p.answer (n + k) how t = some e := by
  cases how with
  | singleStep => exact answer
  | cont => exact Program.resume_more answer k

theorem waitpid_more (n k : Nat) (pid : Int) :
    Extends (waitpid (κ := κ) n pid) (waitpid (n + k) pid) := by
  refine .bind (.refl _) fun w => ?_
  cases w.child with
  | none => exact .refl _
  | some c =>
    dsimp only
    split
    · exact .refl _
    · cases c.resumed with
      | none => exact .refl _
      | some how =>
        dsimp only
        cases answer : c.prog.answer n how c.tracee with
        | none => exact .throw _ _
        | some e =>
          rw [Program.answer_more answer k]
          exact .refl _

/-- `unless done do errquit msg`, followed by the rest of a program. -/
theorem unless_more {α : Type} (done : Bool) (msg : String) {rest rest' : Unit → Cmd κ α}
    (go : ∀ u, Extends (rest u) (rest' u)) :
    Extends (if done = true then rest () else errquit msg >>= rest)
      (if done = true then rest' () else errquit msg >>= rest') := by
  split
  · exact go ()
  · exact .bind (.refl _) go

theorem stepOver_more (n k : Nat) : Extends (stepOver (κ := κ) n) (stepOver (n + k)) := by
  refine .bind (.refl _) fun _ => .bind (.refl _) fun _ => .bind (.refl _) fun _ => ?_
  refine .bind (.refl _) fun back => unless_more back _ fun _ => ?_
  refine .bind (.refl _) fun resumed => unless_more resumed _ fun _ => ?_
  exact .bind (waitpid_more n k _) fun _ => .refl _

theorem goOn_more (status n k : Nat) : Extends (goOn (κ := κ) status n) (goOn status (n + k)) := by
  refine .bind (.refl _) fun _ => .bind (.refl _) fun _ => ?_
  exact .bind (waitpid_more n k _) fun _ => .refl _

theorem cont_more (uninit n k : Nat) : Extends (cont (κ := κ) uninit n) (cont uninit (n + k)) := by
  refine .bind (.refl _) fun _ => ?_
  dsimp only
  split
  · exact .refl _
  · refine .bind (.refl _) fun stored => ?_
    cases stored with
    | none => exact .refl _
    | some regs =>
      refine .bind (.refl _) fun _ => ?_
      split
      · exact .bind (stepOver_more n k) fun _ => goOn_more _ n k
      · exact goOn_more _ n k

theorem si_more (n k : Nat) : Extends (si (κ := κ) n) (si (n + k)) := by
  refine .bind (.refl _) fun _ => ?_
  dsimp only
  split
  · exact .refl _
  · refine .bind (.refl _) fun resumed => unless_more resumed _ fun _ => ?_
    exact .bind (waitpid_more n k _) fun _ => .refl _

theorem sweep_more (host : Host κ) (pid : Int) (stop addr : Addr) (n k : Nat) :
    Extends (sweep host pid stop n addr) (sweep host pid stop (n + k) addr) := by
  induction n generalizing addr with
  | zero =>
    by_cases more : addr < stop
    · simp only [sweep, more, if_true]
      exact .throw _ _
    · cases k <;> simp only [sweep, more, if_false] <;> exact .refl _
  | succ n ih =>
    rw [Nat.succ_add, sweep, sweep]
    split
    · refine .bind (.refl _) fun recorded => ?_
      split
      · refine .bind (.refl _) fun w => ?_
        cases w.origInstructions.getLast? with
        | none => exact .refl _
        | some ins => exact ih _
      · exact .refl _
    · exact .refl _

theorem getOrigCode_more (host : Host κ) (n k : Nat) :
    Extends (getOrigCode host n) (getOrigCode host (n + k)) := by
  refine .bind (.refl _) fun w => ?_
  dsimp only
  split
  · exact sweep_more _ _ _ _ n k
  · exact .refl _

theorem start_more (host : Host κ) (n k : Nat) : Extends (start host n) (start host (n + k)) := by
  refine .bind (.refl _) fun w => ?_
  dsimp only
  split
  · exact .refl _
  · refine .bind (.refl _) fun _ => .bind (.refl _) fun w => ?_
    split
    · exact .refl _
    · refine .bind (.refl _) fun _ => ?_
      split
      · exact .refl _
      · refine .bind (.refl _) fun _ => .bind (.refl _) fun _ => .bind (.refl _) fun _ => ?_
        exact .bind (.refl _) fun _ => getOrigCode_more host n k

theorem runProgram_more (host : Host κ) (n k : Nat) :
    Extends (runProgram host n) (runProgram host (n + k)) := by
  refine .bind (.refl _) fun w => ?_
  dsimp only
  cases w.info.state with
  | running => exact .bind (.refl _) fun _ => cont_more _ n k
  | loaded => exact .bind (start_more host n k) fun _ => cont_more _ n k
  | noload => exact .refl _

/-- More fuel does not change how a command comes back. -/
theorem exec_more (host : Host κ) (cmd : Command) (n k : Nat) :
    Extends (exec host n cmd) (exec host (n + k) cmd) := by
  cases cmd with
  | cont => exact cont_more _ n k
  | run => exact runProgram_more host n k
  | si => exact si_more n k
  | start => exact start_more host n k
  | _ => exact .refl _

theorem Step.unique {host : Host κ} {cmd : Command} {w w₁ w₂ : World κ} (h₁ : Step host cmd w w₁)
    (h₂ : Step host cmd w w₂) : w₁ = w₂ := by
  obtain ⟨n, ok₁⟩ := h₁
  obtain ⟨k, ok₂⟩ := h₂
  have more₁ := exec_more host cmd n k w () w₁ ok₁
  have more₂ := exec_more host cmd k n w () w₂ ok₂
  rw [Nat.add_comm, more₁] at more₂
  cases more₂
  rfl

end UnixProgramming.Sdb
