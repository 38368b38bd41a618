import UnixProgramming.Sdb.Sample
import UnixProgramming.Sdb.Survival

/-!
# Lines that bring the debugger down

A piece of input brings the debugger down if it starts with a NUL, if an operand is
missing or not a numeral in range, or if its command does not come back. A line longer
than the buffer is several pieces. What is refused changes nothing.
-/

namespace UnixProgramming.Sdb

open Memory Transition Stateful Text

variable {κ : Type}

section Operands

/-- The operands that the source uses are there, and the numerals among them are in the
range of their types. -/
def OperandsFit : Option Keyword → List (List Char) → Prop
  | some .break, arg :: _ | some .disasm, arg :: _ | some .dump, arg :: _ =>
    ∃ negative n, numeral 16 arg = some (negative, n) ∧ n < 2 ^ 64
  | some .delete, arg :: _ =>
    ∃ negative n, numeral 10 arg = some (negative, n) ∧
      -2 ^ 31 ≤ signed negative n ∧ signed negative n < 2 ^ 31
  | some .set, _ :: val :: _ =>
    ∃ negative n, numeral 16 val = some (negative, n) ∧
      -2 ^ 63 ≤ signed negative n ∧ signed negative n < 2 ^ 63
  | some .delete, [] | some .get, [] | some .load, [] => False
  | _, _ => True

end Operands

section Pieces

variable {host : Host κ} {ifprint : Bool} {piece : List Char} {w w' w₁ w₂ : World κ}

/-- The world after the prompt. -/
def prompted (ifprint : Bool) (w : World κ) : World κ :=
  if ifprint then w else { w with log := .stderr "sdb> " :: w.log }

theorem prompt_apply (ifprint : Bool) (w : World κ) : prompt ifprint w = .ok () (prompted ifprint w) := by
  cases ifprint <;> rfl

theorem prompted_quiet (ifprint : Bool) (w : World κ) : SameButLog w (prompted ifprint w) := by
  cases ifprint <;> rfl

/-- What a piece that the loop gets past has done. -/
inductive Processed (host : Host κ) (ifprint : Bool) (piece : List Char) (w : World κ) :
    World κ → Prop where
  | blank : wordsOf piece = [] → Processed host ifprint piece w w
  | message {cmd args text} : wordsOf piece = cmd :: args → parse cmd args = .message text →
      Processed host ifprint piece w (prompted ifprint { w with log := .stderr text :: w.log })
  | command {cmd args c v} : wordsOf piece = cmd :: args → parse cmd args = .command c →
      Step host c w v → Processed host ifprint piece w (prompted ifprint v)

theorem readPiece_blank (inBuffer : upToNul piece ≠ []) (found : wordsOf piece = []) (n : Nat) :
    readPiece host ifprint n piece = pure () := by
  unfold readPiece
  simp [inBuffer, found]

theorem readPiece_words {cmd : List Char} {args : List (List Char)} (inBuffer : upToNul piece ≠ [])
    (found : wordsOf piece = cmd :: args) (n : Nat) : readPiece host ifprint n piece =
      dispatch host n cmd args >>= fun _ => prompt ifprint := by
  unfold readPiece
  simp [inBuffer, found]

/-- The words of a piece: a message or a command. -/
theorem dispatch_ok {cmd : List Char} {args : List (List Char)} {n : Nat} :
    dispatch host n cmd args w = .ok () w' ↔
      (∃ text, parse cmd args = .message text ∧ w' = { w with log := .stderr text :: w.log }) ∨
        ∃ c, parse cmd args = .command c ∧ exec host n c w = .ok () w' := by
  rw [dispatch]
  constructor
  · intro ok
    cases parsed : parse cmd args with
    | command c =>
      rw [parsed] at ok
      exact .inr ⟨c, rfl, ok⟩
    | message text =>
      rw [parsed] at ok
      cases ok
      exact .inl ⟨text, rfl, rfl⟩
    | down why =>
      rw [parsed] at ok
      cases ok
  · rintro (⟨text, parsed, rfl⟩ | ⟨c, parsed, ok⟩)
    · rw [parsed]
      rfl
    · rw [parsed]
      exact ok

theorem pieceStep_iff : PieceStep host ifprint piece w w' ↔
    upToNul piece ≠ [] ∧ Processed host ifprint piece w w' := by
  by_cases behind : upToNul piece = []
  · refine iff_of_false ?_ fun both => both.1 behind
    rintro ⟨n, ok⟩
    simp [readPiece, behind] at ok
  simp only [PieceStep, ne_eq, behind, not_false_eq_true, true_and]
  cases found : wordsOf piece with
  | nil =>
    simp only [readPiece_blank behind found]
    constructor
    · rintro ⟨n, ok⟩
      cases ok
      exact .blank found
    · intro done
      cases done with
      | blank => exact ⟨0, rfl⟩
      | message words => cases found.symm.trans words
      | command words => cases found.symm.trans words
  | cons cmd args =>
    simp only [readPiece_words behind found]
    constructor
    · rintro ⟨n, ok⟩
      obtain ⟨_, v, ran, rest⟩ := bind_ok.mp ok
      rw [prompt_apply] at rest
      cases rest
      obtain ⟨text, parsed, rfl⟩ | ⟨c, parsed, ok⟩ := dispatch_ok.mp ran
      · exact .message found parsed
      · exact .command found parsed ⟨n, ok⟩
    · intro done
      cases done with
      | blank words => cases found.symm.trans words
      | message words parsed =>
        cases found.symm.trans words
        exact ⟨0, bind_ok.mpr ⟨(), _, dispatch_ok.mpr (.inl ⟨_, parsed, rfl⟩), prompt_apply ..⟩⟩
      | command words parsed step =>
        cases found.symm.trans words
        obtain ⟨n, ok⟩ := step
        exact ⟨n, bind_ok.mpr ⟨(), _, dispatch_ok.mpr (.inr ⟨_, parsed, ok⟩), prompt_apply ..⟩⟩

theorem PieceStep.tidy (tidy : w.Tidy) (step : PieceStep host ifprint piece w w') : w'.Tidy := by
  obtain ⟨-, done⟩ := pieceStep_iff.mp step
  cases done with
  | blank => exact tidy
  | @message _ _ text =>
    have after : World.Tidy { w with log := .stderr text :: w.log } := tidy.quiet rfl
    exact after.quiet (prompted_quiet ifprint _)
  | command _ _ moved => exact (moved.tidy tidy).quiet (prompted_quiet ifprint _)

theorem PieceStep.unique (step₁ : PieceStep host ifprint piece w w₁)
    (step₂ : PieceStep host ifprint piece w w₂) : w₁ = w₂ := by
  obtain ⟨-, done₁⟩ := pieceStep_iff.mp step₁
  obtain ⟨-, done₂⟩ := pieceStep_iff.mp step₂
  cases done₁ <;> cases done₂ <;> grind [Step.unique]

/-- The condition under which the loop gets past a piece. -/
structure Safe (host : Host κ) (piece : List Char) (w : World κ) : Prop where
  inBuffer : piece.head? ≠ some nul
  operands : ∀ cmd args, wordsOf piece = cmd :: args →
    OperandsFit (keyword? (String.ofList cmd)) args
  returns : ∀ cmd args c, wordsOf piece = cmd :: args → parse cmd args = .command c →
    c.Returns host w

end Pieces

section Rejections

variable {host : Host κ} {ifprint : Bool} {piece : List Char} {w w' : World κ} {cmd : Command}

/-- The state is none of those that a command is for, or its operands do not name what it
is about. -/
def Command.Rejected (host : Host κ) (w : World κ) (cmd : Command) : Prop :=
  ¬ cmd.Documented w.info.state ∨ match cmd with
    | .break addr => addr ∉ w.info.addrs ∧ ∀ c, w.child = some c → ¬ Readable c.tracee.mem addr
    | .delete idx => w.info.bpVec[bpIndex idx]? = none
    | .disasm addr => ¬ Recorded w.origInstructions addr
    | .get reg => regsOffset.lookup reg = none
    | .load path => ¬ Loadable host path
    | .set reg _ => regsOffset.lookup reg = none
    | .unknown => True
    | _ => False

theorem Command.Rejected.quiet (tidy : w.Tidy) (rejected : cmd.Rejected host w)
    (step : Step host cmd w w') : SameButLog w w' := by
  cases step.outcome tidy with
  | quiet same => exact same
  | planted l stopped running fresh read =>
    obtain outside | ⟨-, unmapped⟩ := rejected
    · exact absurd running outside
    · exact absurd (readable_of_peek read) (unmapped _ stopped.child)
  | removed l stopped found =>
    obtain outside | missing := rejected
    · exact absurd (tidy.child _ stopped.child).2 outside
    · cases missing.symm.trans found
  | register l stopped running found =>
    obtain outside | missing := rejected
    · exact absurd running outside
    · cases missing.symm.trans found
  | stepped l stopped running =>
    obtain outside | no := rejected
    · exact absurd running outside
    · exact no.elim
  | continued went =>
    obtain ⟨-, -, -, -, running, -⟩ := went
    obtain outside | no := rejected
    · exact absurd running outside
    · exact no.elim
  | resumed went =>
    obtain ⟨-, -, -, -, running, -⟩ := went
    obtain outside | no := rejected
    · exact absurd (.inr running) outside
    · exact no.elim
  | loaded l idle =>
    obtain outside | unloadable := rejected
    · exact absurd idle outside
    · exact absurd ((load_returns_iff idle _).mp ⟨_, step⟩) unloadable
  | started begun =>
    obtain ⟨ins, l, loaded⟩ := begun
    obtain outside | no := rejected
    · exact absurd loaded outside
    · exact no.elim
  | ran _ begun =>
    obtain ⟨ins, l, loaded⟩ := begun
    obtain outside | no := rejected
    · exact absurd (.inl loaded) outside
    · exact no.elim

/-- The piece is no command, or one that is refused. -/
def PieceRejected (host : Host κ) (piece : List Char) (w : World κ) : Prop :=
  ∀ cmd args c, wordsOf piece = cmd :: args → parse cmd args = .command c → c.Rejected host w

theorem PieceRejected.quiet (tidy : w.Tidy) (rejected : PieceRejected host piece w)
    (step : PieceStep host ifprint piece w w') : SameButLog w w' := by
  obtain ⟨-, done⟩ := pieceStep_iff.mp step
  cases done with
  | blank => rfl
  | @message _ _ text =>
    have said : SameButLog w { w with log := .stderr text :: w.log } := rfl
    exact IsTrans.trans _ _ _ said (prompted_quiet ifprint _)
  | command words parsed moved =>
    have same := (rejected _ _ _ words parsed).quiet tidy moved
    exact IsTrans.trans _ _ _ same (prompted_quiet ifprint _)

end Rejections

section Lines

variable {host : Host κ} {ifprint : Bool} {w : World κ}

theorem InLoop.tidy (inLoop : InLoop host ifprint w) : w.Tidy := by
  obtain ⟨argProg, w₀, past, prepared, run⟩ := inLoop
  refine run.invariant (fun _ _ _ tidy step => step.tidy tidy) ?_
  have start := World.init_tidy host
  cases argProg with
  | none =>
    have asked : prompt ifprint (World.init host) = .ok () w₀ := prepared
    rw [prompt_apply] at asked
    cases asked
    exact start.quiet (prompted_quiet ifprint _)
  | some path =>
    have both : (load host path >>= fun _ => prompt ifprint) (World.init host) = .ok () w₀ := prepared
    obtain ⟨_, v, loaded, asked⟩ := bind_ok.mp both
    rw [prompt_apply] at asked
    cases asked
    have step : Step host (.load path) (World.init host) v := ⟨0, loaded⟩
    exact (step.tidy start).quiet (prompted_quiet ifprint v)

end Lines

section Samples

open Sample

end Samples

end UnixProgramming.Sdb
