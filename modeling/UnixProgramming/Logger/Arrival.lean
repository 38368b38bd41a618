import UnixProgramming.Logger.Reading

/-!
# The log file

The lines of a program go to the open file that `OUTPUT_FD` stands for when they are
written. So the file that the launcher has chosen can be read as the calls of the program
exactly if no call closes that descriptor and the results fit the lines.
-/

namespace UnixProgramming.Logger

open Descriptor Interaction Text Transition

variable {τ ω : Type}

section Model

/-- A program under the logger with its descriptors, and what the wrappers have written to
each open file. -/
structure Session (τ ω : Type) where
  program : τ
  monitored : Monitored ω
  process : Process
  written : File → List Char

/-- A text behind what is in a file already; it is lost if the descriptor is closed. -/
def put : Option File → List Char → (File → List Char) → File → List Char
  | none, _, written => written
  | some f, text, written => Function.update written f (written f ++ text)

/-- One call: the answer of its wrapper, what the real function does to the descriptors, and
the line. -/
def Session.Step (program : Client Call Answer τ) (W : World ω) (ca : Call × Answer)
    (s s' : Session τ ω) : Prop :=
  program.Step W.monitored ca (s.program, s.monitored) (s'.program, s'.monitored) ∧
    ∃ q lines, s.process.Real ca.1.effect (ca.1.retval (W.library s.monitored.world).toLibc) q ∧
      s'.process = q.write ⟨ca.1, ca.1.retval (W.library s.monitored.world).toLibc⟩ ∧
      s'.monitored.log = s.monitored.log ++ lines ∧ s'.written = put q.target lines.flatten s.written

/-- A call whose line is written, and is one line. -/
def Session.Logged (program : Client Call Answer τ) (W : World ω) (ca : Call × Answer)
    (s s' : Session τ ω) : Prop :=
  Session.Step program W ca s s' ∧ Readable (W.library s.monitored.world) ca.1

/-- The program as the launcher starts it. -/
def Session.start (argFile : String) (opens : Bool) (t : Table) (streams : Stream → Option Nat)
    (state : τ) (errno : Int) (w : ω) : Session τ ω :=
  ⟨state, ⟨errno, w, []⟩, started argFile opens t streams, fun _ => []⟩

end Model

section Put

variable {target : Option File} {f : File} {text : List Char} {written : File → List Char}

end Put

section Runs

variable {program : Client Call Answer τ} {W : World ω} {ca : Call × Answer}
  {trace : List (Call × Answer)} {s s' : Session τ ω} {chosen : File}

variable (chosen) in
/-- One call: its line goes to the file that the descriptor stands for then, which stays the
same one exactly if the call does not close the descriptor. -/
theorem Session.Logged.line (logged : Session.Logged program W ca s s') :
    ∃ line, ReadAs ca line ∧ s'.written = put s'.process.target line s.written ∧
      (s.process.target = some chosen →
        (s'.process.target = some chosen ↔ ¬ Closes s.process ca.1.effect)) := by
  rcases logged with ⟨⟨⟨-, ran, -⟩, q, lines, real, process, log, written⟩, readable⟩
  rcases monitored_line readable ran with ⟨line, added, readAs⟩
  have same : lines = [line] := List.append_cancel_left (log.symm.trans added)
  rw [same, List.flatten_singleton] at written
  have target : s'.process.target = q.target := by
    rw [process]
    rfl
  exact ⟨line, readAs, target ▸ written, fun here => target ▸ real.target_iff here⟩

end Runs

end UnixProgramming.Logger
