import Mathlib.Logic.Function.Basic
import UnixProgramming.Foundation.Memory

/-!
# The signal calls of the kernel

A process has its memory, its set of blocked signals and its signal actions. The
two system calls that `libmini` makes on them check the size of the signal set,
which has one word, before anything else.
-/

namespace UnixProgramming.Libmini

open Memory

abbrev Word := BitVec 64

/-- `struct sigaction`, one word for each field. -/
structure Action where
  handler : Word
  flags : Word
  restorer : Word
  mask : Word
  deriving DecidableEq

structure Process where
  mem : Addr → BitVec 8
  mask : Word
  actions : Int → Action

def einval : Word := -22

section Procmask

/-- `rt_sigprocmask` without its size: `how` is 0 to block, 1 to unblock, 2 to set. -/
def changeMask (how set mask : Word) : Option Word :=
  if how = 0 then some (mask ||| set)
  else if how = 1 then some (mask &&& ~~~set)
  else if how = 2 then some set
  else none

/-- The new set is read before the old one is written. -/
def rtSigprocmask (how nset oset size : Word) (p : Process) : Word × Process :=
  if size ≠ 8 then
    (einval, p)
  else
    match if nset = 0 then some p.mask else changeMask how (load p.mem nset) p.mask with
    | none => (einval, p)
    | some mask => (0, { p with
        mem := if oset = 0 then p.mem else store p.mem oset p.mask
        mask := mask })

theorem rtSigprocmask_size {how nset oset size : Word} (h : size ≠ 8) (p : Process) :
    rtSigprocmask how nset oset size p = (einval, p) := if_pos h

end Procmask

section Sigaction

def loadAction (m : Addr → BitVec 8) (a : Addr) : Action :=
  ⟨load m (slot a 0), load m (slot a 1), load m (slot a 2), load m (slot a 3)⟩

def storeAction (m : Addr → BitVec 8) (a : Addr) (act : Action) : Addr → BitVec 8 :=
  stores m [(slot a 0, act.handler), (slot a 1, act.flags),
    (slot a 2, act.restorer), (slot a 3, act.mask)]

/-- The signals whose action can be set: all but `SIGKILL` and `SIGSTOP`. -/
def Settable (signo : Int) : Prop := 1 ≤ signo ∧ signo ≤ 64 ∧ signo ≠ 9 ∧ signo ≠ 19

instance (signo : Int) : Decidable (Settable signo) := inferInstanceAs (Decidable (_ ∧ _))

/-- `rt_sigaction` with both pointers given, as `libmini` always calls it. -/
def rtSigaction (signo : Int) (nact oact : Addr) (size : Word) (p : Process) : Word × Process :=
  if size ≠ 8 ∨ ¬ Settable signo then
    (einval, p)
  else
    (0, { p with
      mem := storeAction p.mem oact (p.actions signo)
      actions := Function.update p.actions signo (loadAction p.mem nact) })

end Sigaction

end UnixProgramming.Libmini
