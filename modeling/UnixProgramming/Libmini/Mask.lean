import UnixProgramming.Libmini.Jump

/-!
# The signal mask across `setjmp` and `longjmp`

Both routines pass 32 as the size of the signal set, which the kernel refuses. What
`setjmp` then puts into the mask field is the 0 that it passed as `oset`, and neither
call changes the mask.
-/

namespace UnixProgramming.Libmini

open Memory

def Machine.mask (s : Machine) : Word := s.proc.mask

/-- The mask field of `env`. -/
def Machine.field (t : Machine) (env : Addr) : Word := load t.mem (slot env 8)

section Refused

variable {clobber : Machine → Word × Word}

theorem sigprocmaskCall_proc {s : Machine} (h : s.regs .r10 = 32) :
    (sigprocmaskCall clobber s).proc = s.proc := by
  have refused : rtSigprocmask (s.regs .rdi) (s.regs .rsi) (s.regs .rdx) (s.regs .r10) s.proc =
      (einval, s.proc) := rtSigprocmask_size (h ▸ by decide) s.proc
  simp only [sigprocmaskCall, refused]

theorem setjmp_mask (s : Machine) :
    (Machine.run (sigprocmaskCall clobber) setjmp s).mask = s.mask := by
  rw [run_setjmp]
  change (sigprocmaskCall clobber s.saved).proc.mask = s.mask
  rw [sigprocmaskCall_proc rfl]
  rfl

theorem longjmp_mask (t : Machine) :
    (Machine.run (sigprocmaskCall clobber) longjmp t).mask = t.mask := by
  rw [run_longjmp]
  change (sigprocmaskCall clobber t.restored).proc.mask = t.mask
  rw [sigprocmaskCall_proc rfl]
  rfl

theorem setjmp_field {s : Machine} (h : Clear s.env s.resumed) :
    (Machine.run (sigprocmaskCall clobber) setjmp s).field s.env = 0 := by
  rw [Machine.field, (setjmp_returned (sigprocmaskCall_frugal clobber) h).mem]
  exact load_stores (saves_apart h) (by simp [saves])

end Refused

/-- The mask at the call of `setjmp` is saved, kept by `setjmp`, and brought back by a
`longjmp` called in `t`. -/
structure MaskRestored (kernel : Kernel) (s t : Machine) : Prop where
  field : (Machine.run kernel setjmp s).field s.env = s.mask
  kept : (Machine.run kernel setjmp s).mask = s.mask
  restored : (Machine.run kernel longjmp t).mask = s.mask

/-- Whatever happened between the two calls, the mask comes back if and only if it was empty
at both. -/
theorem maskRestored_iff (clobber : Machine → Word × Word) {s : Machine} (h : Clear s.env s.resumed)
    (t : Machine) :
    MaskRestored (sigprocmaskCall clobber) s t ↔ s.mask = 0 ∧ t.mask = 0 := by
  constructor
  · intro ok
    have empty : s.mask = 0 := ok.field.symm.trans (setjmp_field h)
    exact ⟨empty, (longjmp_mask t).symm.trans (ok.restored.trans empty)⟩
  · rintro ⟨before, after⟩
    exact ⟨(setjmp_field h).trans before.symm, setjmp_mask s,
      (longjmp_mask t).trans (after.trans before.symm)⟩

theorem maskRestored_empty :
    MaskRestored quiet (caller 0) ((Machine.run quiet setjmp (caller 0)).arguments 0x8000 7) :=
  (maskRestored_iff (fun _ => (0, 0)) (caller_clear 0) _).mpr ⟨rfl, rfl⟩

/-- With `SIGHUP` blocked the field does not hold the mask. -/
theorem setjmp_loses_mask :
    ¬ MaskRestored quiet (caller 1) ((Machine.run quiet setjmp (caller 1)).arguments 0x8000 7) := by
  intro ok
  have field : (Machine.run quiet setjmp (caller 1)).field (caller 1).env = 0 :=
    setjmp_field (caller_clear 1)
  exact absurd (field.symm.trans ok.field) (by decide)

end UnixProgramming.Libmini
