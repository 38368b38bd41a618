import UnixProgramming.Sdb.Main
import UnixProgramming.Sdb.Visits

/-!
# The transcript of a session

A script starts the program, sets its breakpoints and calls `cont` until the program is at
its end. What `sdb` prints then are the instructions at the breakpoints, in the order in
which the program comes to them by itself, and at last how it exits.
-/

namespace UnixProgramming.Sdb

open Getopt Memory Stateful Transition

variable {κ : Type}

section Texts

/-- These texts, and no others, have been printed in between. -/
def Tells (texts : List String) (w w' : World κ) : Prop := w'.said = texts.reverse ++ w.said

theorem Tells.trans {texts texts' : List String} {w w' w'' : World κ} (first : Tells texts w w')
    (second : Tells texts' w' w'') : Tells (texts ++ texts') w w'' := by
  rw [Tells, second, first, List.reverse_append, List.append_assoc]

instance : Std.Refl (Tells (κ := κ) []) := ⟨fun _ => rfl⟩

instance : IsTrans (World κ) (Tells []) := ⟨fun _ _ _ => Tells.trans⟩

end Texts

section Silence

end Silence

section Reports

variable {w w' : World κ} {c : Child κ} {t t' : Tracee κ} {kept it : Breakpoint} {e : Event κ}
  {status n : Nat}

end Reports

section Runs

variable {p : Program κ} {code : Set Addr} {len : Addr → Nat} {bps : List Addr} {host : Host κ}
  {ins : List Instruction1} {w w' : World κ} {s s' : Plain κ} {t u : Tracee κ} {ts : List (Tracee κ)}
  {reported : Option Addr} {exit : BitVec 8}

end Runs

section Session

variable {p : Program κ} {code : Set Addr} {len : Addr → Nat} {bps addrs : List Addr} {host : Host κ}
  {ins : List Instruction1} {w w' : World κ} {t u : Tracee κ} {ts : List (Tracee κ)} {exit : BitVec 8}
  {n : Nat} {path : String}

/-- Only the set of the breakpoints matters. -/
theorem Trail.congr {bps' : List Addr} (same : ∀ a, a ∈ bps' ↔ a ∈ bps) (trail : Trail p len bps t ts) :
    Trail p len bps' t ts := by
  refine trail.imp fun t t' passes => ⟨passes.1, ?_⟩
  rcases passes.2 with ⟨intact, readable, gentle, nonzero⟩
  exact ⟨fun x listed => intact x ((same x).mp listed), fun here => readable ((same _).mp here),
    fun here => gentle ((same _).mp here), fun here => nonzero ((same _).mp here)⟩

theorem ExitsAt.congr {bps' : List Addr} (same : ∀ a, a ∈ bps' ↔ a ∈ bps) (exits : ExitsAt p len bps u exit) :
    ExitsAt p len bps' u exit :=
  ⟨exits.exits, fun x listed => exits.intact x ((same x).mp listed), fun here => exits.away ((same _).mp here)⟩

end Session

section Script

variable {host : Host κ} {cs : List Command} {n k : Nat} {w w' : World κ}

variable {script : Word → Option (List Char)} {stdin : List Char} {args : List Argument} {file : Word}
  {path : String} {p : Program κ} {code : Set Addr} {len : Addr → Nat} {addrs : List Addr}
  {u : Tracee κ} {ts : List (Tracee κ)} {exit : BitVec 8}

end Script

section Pass

open Sample

end Pass

end UnixProgramming.Sdb
