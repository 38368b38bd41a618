import UnixProgramming.Sdb.Debuggee

/-!
# The code of a debuggee

Breakpoints are planted in the code, so what they do to a program depends on how
the program treats its own code. `Steady` programs leave it alone. `Lawful`
programs fetch one instruction at a time from it and do not touch it otherwise:
what an instruction does is then determined by its own bytes.
-/

namespace UnixProgramming.Sdb

open Memory

variable {κ : Type}

section Patched

/-- The code is that of `image`, with the breakpoint instruction at the armed addresses. -/
def Patched (code : Set Addr) (image : Addr → Option Byte) (armed : List Addr)
    (mem : Addr → Option Byte) : Prop :=
  ∀ x ∈ code, mem x = if x ∈ armed then some int3 else image x

variable {code : Set Addr} {image mem mem' : Addr → Option Byte} {armed : List Addr} {addr : Addr}

theorem Patched.congr (h : Patched code image armed mem) (same : ∀ x ∈ code, mem' x = mem x) :
    Patched code image armed mem' := fun x hx => (same x hx).trans (h x hx)

theorem Patched.arm (h : Patched code image armed mem) :
    Patched code image (armed ++ [addr]) (Function.update mem addr (some int3)) := by
  intro x hx
  by_cases here : x = addr
  · simp [here]
  · rw [Function.update_of_ne here, h x hx]
    simp [here]

/-- Putting the original byte back at `addr`. -/
theorem Patched.disarm {orig : Byte} {rest : List Addr} (h : Patched code image armed mem)
    (saved : addr ∈ code → image addr = some orig)
    (split : ∀ x, x ∈ rest ↔ x ∈ armed ∧ x ≠ addr) :
    Patched code image rest (Function.update mem addr (some orig)) := by
  intro x hx
  by_cases here : x = addr
  · subst here
    rw [Function.update_self, if_neg fun listed => ((split x).mp listed).2 rfl, saved hx]
  · rw [Function.update_of_ne here, h x hx]
    simp [split, here]

/-- Writing the old word back armed over code that a step kept. -/
theorem Patched.rearm (h : Patched code image armed mem) (listed : addr ∈ armed)
    (kept : ∀ x ∈ code, x ≠ addr → mem' x = mem x) :
    Patched code image armed
      (Function.update ((window addr 8).piecewise mem mem') addr (some int3)) := by
  intro x hx
  by_cases here : x = addr
  · simp [here, listed]
  · rw [Function.update_of_ne here, ← h x hx]
    by_cases near : x ∈ window addr 8
    · rw [Set.piecewise_eq_of_mem _ _ _ near]
    · rw [Set.piecewise_eq_of_notMem _ _ _ near, kept x hx here]

end Patched

/-- A program that never writes its code and never maps address 0, in whichever way
its code is patched. -/
structure Steady (p : Program κ) (code : Set Addr) : Prop where
  null : p.image.mem 0 = none
  keep : ∀ t armed t', Patched code p.image.mem armed t.mem → (p.step t).tracee? = some t' →
    ∀ x ∈ code, t'.mem x = t.mem x
  keep_null : ∀ t armed t', Patched code p.image.mem armed t.mem → t.mem 0 = none →
    (p.step t).tracee? = some t' → t'.mem 0 = none

section Lawful

open Classical in
/-- The debuggee with its code replaced. -/
noncomputable def Tracee.recode (code : Set Addr) (m : Addr → Option Byte) (t : Tracee κ) :
    Tracee κ := { t with mem := code.piecewise m t.mem }

@[simp] theorem Tracee.recode_regs (code : Set Addr) (m : Addr → Option Byte) (t : Tracee κ) :
    (t.recode code m).regs = t.regs := rfl

open Classical in
theorem Tracee.recode_mem_of_mem {code : Set Addr} {m : Addr → Option Byte} {t : Tracee κ}
    {x : Addr} (hx : x ∈ code) : (t.recode code m).mem x = m x :=
  Set.piecewise_eq_of_mem _ _ _ hx

open Classical in
theorem Tracee.recode_mem_of_notMem {code : Set Addr} {m : Addr → Option Byte} {t : Tracee κ}
    {x : Addr} (hx : x ∉ code) : (t.recode code m).mem x = t.mem x :=
  Set.piecewise_eq_of_notMem _ _ _ hx

/-- Recoding and a write to the data commute. -/
theorem Tracee.recode_update {code : Set Addr} {m : Addr → Option Byte} (t : Tracee κ) {x : Addr}
    (hx : x ∉ code) (v : Option Byte) :
    Tracee.recode code m { t with mem := Function.update t.mem x v } =
      { t.recode code m with mem := Function.update (t.recode code m).mem x v } := by
  have same : (Tracee.recode code m { t with mem := Function.update t.mem x v }).mem =
      Function.update (t.recode code m).mem x v := by
    funext y
    by_cases here : y = x
    · subst here
      rw [recode_mem_of_notMem hx, Function.update_self]
      exact Function.update_self _ _ _
    · rw [Function.update_of_ne here]
      by_cases inside : y ∈ code
      · rw [recode_mem_of_mem inside, recode_mem_of_mem inside]
      · rw [recode_mem_of_notMem inside, recode_mem_of_notMem inside]
        exact Function.update_of_ne here _ _
  exact congrArg (fun mem => ({ t with mem := mem } : Tracee κ)) same

def Event.map (f : Tracee κ → Tracee κ) : Event κ → Event κ
  | .next t => .next (f t)
  | .stop sig t => .stop sig (f t)
  | .exited code => .exited code
  | .signaled sig core => .signaled sig core

/-- What executing the breakpoint instruction leaves. -/
def trapped (t : Tracee κ) : Tracee κ := { t with regs := setRip t.regs (rip t.regs + 1) }

/-- A program whose instruction at `a` is the `len a` bytes of its code from `a` on. -/
structure Lawful (p : Program κ) (code : Set Addr) (len : Addr → Nat) : Prop where
  trap : ∀ t, t.mem (rip t.regs) = some int3 → p.step t = .stop sigtrap (trapped t)
  own : ∀ t m, (∀ x ∈ code, t.mem x = p.image.mem x) →
    (∀ x ∈ window (rip t.regs) (len (rip t.regs)), x ∈ code → m x = t.mem x) →
    p.step (t.recode code m) = (p.step t).map (Tracee.recode code m)

end Lawful

end UnixProgramming.Sdb
