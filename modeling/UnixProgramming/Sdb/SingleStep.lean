import UnixProgramming.Sdb.Simulation

/-!
# `si` against one instruction of the plain program

`si` steps the patched code. At a breakpoint this executes the planted `int3`, so
it is the program's own step only where the bytes of the instruction are the
program's, or where the patched bytes happen to do the same.
-/

namespace UnixProgramming.Sdb

open Memory

variable {κ : Type}

/-- The same registers and the same data. -/
structure SameVisible (code : Set Addr) (t t' : Tracee κ) : Prop where
  regs : t.regs = t'.regs
  data : ∀ x ∉ code, t.mem x = t'.mem x

theorem SameVisible.symm {code : Set Addr} {t t' : Tracee κ} (h : SameVisible code t t') :
    SameVisible code t' t := ⟨h.regs.symm, fun x hx => (h.data x hx).symm⟩

theorem SameVisible.trans {code : Set Addr} {t t' t'' : Tracee κ} (h : SameVisible code t t')
    (h' : SameVisible code t' t'') : SameVisible code t t'' :=
  ⟨h.regs.trans h'.regs, fun x hx => (h.data x hx).trans (h'.data x hx)⟩

/-- The debuggee with the original code back. -/
noncomputable def Child.plain (c : Child κ) (code : Set Addr) : Tracee κ :=
  c.tracee.recode code c.prog.image.mem

section Condition

variable (code : Set Addr) (len : Addr → Nat) (w : World κ) (c : Child κ)

/-- The bytes of the instruction at `rip` are the program's own. -/
def Untouched : Prop :=
  ∀ x ∈ window (rip c.tracee.regs) (len (rip c.tracee.regs)), x ∈ code →
    c.tracee.mem x = c.prog.image.mem x

end Condition

section Si

variable {code : Set Addr} {len : Addr → Nat} {host : Host κ} {w w' : World κ} {c : Child κ}

end Si

section Fill

open Sample

end Fill

end UnixProgramming.Sdb
