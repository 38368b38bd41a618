import UnixProgramming.Logger.Line

/-!
# Buffers in the log

`checkbuf` copies a buffer of the caller into an array of 32 bytes for the line. It does
not know how many bytes of the buffer are valid: it stops at a NUL, or when it has filled
the array.
-/

namespace UnixProgramming.Logger

open Memory Printf

section Copies

variable {byte : Addr → Option (BitVec 8)} {buf : Addr}

/-- A byte as it is shown. -/
def visible (c : BitVec 8) : BitVec 8 := if isprint c then c else 0x2e

theorem checkbuf_succ (left : Nat) :
    checkbuf byte buf (left + 1) = (byte (buf + BitVec.ofNat 64 (31 - left))).bind fun c =>
      if c = 0 then some [] else (checkbuf byte buf left).map (visible c :: ·) := rfl

end Copies

section Accesses

/-- An access of `checkbuf`, by its index in the array. -/
inductive Access where
  | read (i : Nat)
  | write (i : Nat)
  deriving DecidableEq

/-- The accesses of the loop with `left` more characters to go: it reads from the caller's
buffer and writes to `checked_buf`. -/
def accesses (byte : Addr → Option (BitVec 8)) (buf : Addr) : Nat → List Access
  | 0 => [.read 32]
  | left + 1 =>
    let i := 31 - left
    if (byte (buf + BitVec.ofNat 64 i)).all (· = 0) then
      [.read i]
    else
      .read i :: .write i :: accesses byte buf left

variable {byte : Addr → Option (BitVec 8)} {buf : Addr}

/-- The loop comes to its end if and only if it reads nothing unreadable. -/
theorem checkbuf_isSome_iff (left : Nat) : (checkbuf byte buf left).isSome ↔
    ∀ i, .read i ∈ accesses byte buf left → (byte (buf + BitVec.ofNat 64 i)).isSome := by
  induction left with
  | zero => simp [checkbuf, accesses]
  | succ left ih =>
    rw [checkbuf_succ, accesses]
    cases at_i : byte (buf + BitVec.ofNat 64 (31 - left)) with
    | none => simp [at_i]
    | some c =>
      rw [Option.bind_some, Option.all_some]
      split_ifs with zero other
      · simp [at_i]
      · exact absurd (decide_eq_true zero) other
      · next ends => exact absurd (of_decide_eq_true ends) zero
      · simp [ih, at_i]

end Accesses

section Samples

end Samples

section Lines

variable {lib : Library} {c : Call} {buf : Addr} {data : List (BitVec 8)}

namespace Call

end Call

end Lines

end UnixProgramming.Logger
