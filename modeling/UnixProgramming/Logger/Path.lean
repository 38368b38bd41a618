import UnixProgramming.Logger.Line

/-!
# Paths in the log

A wrapper logs the real path of a file name. It takes it from `realpath`, before the real
call or after it, in a buffer of its own that `realpath` knows nothing about, and falls
back to the name as it is.
-/

namespace UnixProgramming.Logger

open Stateful Printf

section Overflow

variable {libc : Libc} {s : Caller} {c : Call}

end Overflow

section Names

variable {lib : Library} {c : Call} {i : Nat} {p : String}

namespace Call

/-- The real calls that have been made when the wrapper resolves a path. -/
def made (c : Call) (i : Nat) : List RealCall :=
  match c with
  | .chmod _ _ | .creat _ _ | .creat64 _ _ | .chown _ _ _ => [c.real]
  | .rename _ _ => if i = 0 then [] else [c.real]
  | _ => []

end Call

/-- The path resolves when the wrapper tries, or never does, or only to itself. -/
def Settled (own other : Resolution) (path : String) : Prop :=
  (∃ r, own = .found r) ∨ (∀ r, other ≠ .found r) ∨ other = .found path

end Names

end UnixProgramming.Logger
