import UnixProgramming.Sdb.Data

/-!
# The debuggee, and the debugger's view of it through `ptrace` and `waitpid`

A program is any deterministic step function on registers, memory and a hidden
state of arbitrary type, which stands for everything else the process depends on
(files, time, signals on their way). One step executes one instruction, fetched
from the memory of that moment. `PTRACE_SINGLESTEP` runs one step,
`PTRACE_CONT` steps until something stops or ends the process; the number of
steps is bounded by fuel, and a `waitpid` that runs out of it has not returned.
-/

namespace UnixProgramming.Sdb

open Memory

/-- Signals are numbered from 1 to 64. -/
abbrev Signal := {n : Nat // 0 < n ∧ n ≤ 64}

def sigtrap : Signal := ⟨5, by decide⟩

structure Tracee (κ : Type) where
  regs : UserRegs
  mem : Addr → Option Byte
  hidden : κ

/-- What executing one instruction leads to. -/
inductive Event (κ : Type) where
  | next (t : Tracee κ)
  | stop (sig : Signal) (t : Tracee κ)
  | exited (code : BitVec 8)
  | signaled (sig : Signal) (core : Bool)

structure Program (κ : Type) where
  image : Tracee κ
  step : Tracee κ → Event κ

variable {κ : Type}

/-- The process after the event, if there still is one. -/
def Event.tracee? : Event κ → Option (Tracee κ)
  | .next t => some t
  | .stop _ t => some t
  | .exited _ => none
  | .signaled _ _ => none

/-- The status word of `waitpid`; an undisturbed single step ends in `SIGTRAP`. -/
def Event.status : Event κ → Nat
  | .next _ => sigtrap * 256 + 127
  | .stop sig _ => sig * 256 + 127
  | .exited code => code.toNat * 256
  | .signaled sig core => sig + if core then 128 else 0

def wifstopped (status : Nat) : Prop := status % 256 = 127

def wifexited (status : Nat) : Prop := status % 128 = 0

def wifsignaled (status : Nat) : Prop := 0 < status % 128 ∧ status % 128 < 127

instance (status : Nat) : Decidable (wifstopped status) := inferInstanceAs (Decidable (_ = _))
instance (status : Nat) : Decidable (wifexited status) := inferInstanceAs (Decidable (_ = _))
instance (status : Nat) : Decidable (wifsignaled status) := inferInstanceAs (Decidable (_ ∧ _))

section Status

@[simp] theorem wifstopped_status (e : Event κ) :
    wifstopped e.status ↔ e.tracee?.isSome := by
  cases e with
  | next t => simp [Event.status, Event.tracee?, wifstopped, sigtrap]
  | stop sig t => simp [Event.status, Event.tracee?, wifstopped]
  | exited code => simp [Event.status, Event.tracee?, wifstopped]
  | signaled sig core =>
    have bound := sig.2
    cases core <;> simp [Event.status, Event.tracee?, wifstopped] <;> omega

@[simp] theorem wifexited_status (e : Event κ) : wifexited e.status ↔ ∃ code, e = .exited code := by
  cases e with
  | next t => simp [Event.status, wifexited, sigtrap]
  | stop sig t => simp [Event.status, wifexited]; omega
  | exited code => simp [Event.status, wifexited]; omega
  | signaled sig core =>
    have bound := sig.2
    cases core <;> simp [Event.status, wifexited] <;> omega

theorem wifexited_not_wifsignaled {status : Nat} (h : wifexited status) : ¬ wifsignaled status := by
  unfold wifexited at h
  unfold wifsignaled
  omega

end Status

/-- Step until the process stops or ends. -/
def Program.resume (p : Program κ) : Nat → Tracee κ → Option (Event κ)
  | 0, _ => none
  | n + 1, t =>
    match p.step t with
    | .next t' => p.resume n t'
    | e => some e

/-- The resume request that `waitpid` will find carried out. -/
inductive Resume where
  | singleStep
  | cont
  deriving DecidableEq

/-- What every step keeps, a resumed process keeps until it stops. -/
theorem Program.resume_invariant {p : Program κ} {I : Tracee κ → Prop}
    (keep : ∀ t t', I t → (p.step t).tracee? = some t' → I t') {n : Nat} {t t' : Tracee κ}
    {e : Event κ} (answer : p.resume n t = some e) (left : e.tracee? = some t') (h : I t) : I t' := by
  induction n generalizing t with
  | zero => cases answer
  | succ n ih =>
    simp only [Program.resume] at answer
    split at answer
    · next t₁ moved => exact ih answer (keep t t₁ h (by rw [moved]; rfl))
    · cases answer
      exact keep t t' h left

theorem Program.resume_more {p : Program κ} {n : Nat} {t : Tracee κ} {e : Event κ}
    (answer : p.resume n t = some e) (k : Nat) : p.resume (n + k) t = some e := by
  induction n generalizing t with
  | zero => cases answer
  | succ n ih =>
    rw [Nat.succ_add]
    simp only [Program.resume] at answer ⊢
    split at answer
    · exact ih answer
    · exact answer

/-- Fuel does not change the answer. -/
theorem Program.resume_unique {p : Program κ} {n k : Nat} {t : Tracee κ} {e e' : Event κ}
    (answer : p.resume n t = some e) (answer' : p.resume k t = some e') : e = e' := by
  have first := resume_more answer k
  have second := resume_more answer' n
  rw [Nat.add_comm, first] at second
  exact Option.some.inj second

def Program.answer (p : Program κ) (n : Nat) : Resume → Tracee κ → Option (Event κ)
  | .singleStep, t => some (p.step t)
  | .cont, t => p.resume n t

/-- Our child in the process table; `resumed` is empty while it is in a ptrace stop. -/
structure Child (κ : Type) where
  pid : Int
  prog : Program κ
  tracee : Tracee κ
  resumed : Option Resume

inductive Request where
  | peekText (addr : Addr)
  | pokeText (addr : Addr) (word : BitVec 64)
  | getRegs
  | setRegs (regs : UserRegs)
  | singleStep (data : Nat)
  | cont (data : Nat)
  | setOptions

/-- What the debugger does that others can see. -/
inductive Effect where
  | ptrace (pid : Int) (request : Request)
  | fork
  | stderr (text : String)

/-- Why the debugger process is not back in its reading loop: it exited, an
assertion failed, it read outside an object, or a wait has not returned yet. -/
inductive Halt where
  | exit (code : Int)
  | abort
  | outOfBounds
  | waiting
  deriving DecidableEq

/-- The debugger's variables, the child process, and all effects so far, last first. -/
structure World (κ : Type) where
  info : ProgInfo
  bpRestore : Breakpoint
  origInstructions : List Instruction1
  child : Option (Child κ)
  forks : Nat
  log : List Effect

abbrev Cmd (κ : Type) := EStateM Halt (World κ)

def emit (e : Effect) : Cmd κ Unit := modify fun w => { w with log := e :: w.log }

def stderr (text : String) : Cmd κ Unit := emit (.stderr text)

/-- `perror(msg); exit(-1)`; the text of `strerror` is left out. -/
def errquit {α : Type} (msg : String) : Cmd κ α := do
  stderr msg
  throw (.exit (-1))

/-- The process a request to `pid` reaches: our child, while it is stopped. -/
def World.stopped? (w : World κ) (pid : Int) : Option (Child κ) :=
  match w.child with
  | none => none
  | some c => if c.pid = pid ∧ c.resumed = none then some c else none

def setTracee (c : Child κ) (t : Tracee κ) : Cmd κ Unit :=
  modify fun w => { w with child := some { c with tracee := t } }

def peekText? (pid : Int) (addr : Addr) : Cmd κ (Option (BitVec 64)) := do
  emit (.ptrace pid (.peekText addr))
  return ((← get).stopped? pid).bind fun c => peek c.tracee.mem addr

/-- `ptrace(PTRACE_PEEKTEXT, ...)` is -1 when the word cannot be read. -/
def peekText (pid : Int) (addr : Addr) : Cmd κ (BitVec 64) := do
  return (← peekText? pid addr).getD (-1)

/-- Whether `ptrace(PTRACE_POKETEXT, ...)` returned 0. -/
def pokeText (pid : Int) (addr : Addr) (word : BitVec 64) : Cmd κ Bool := do
  emit (.ptrace pid (.pokeText addr word))
  match (← get).stopped? pid with
  | none => return false
  | some c =>
    match poke c.tracee.mem addr word with
    | none => return false
    | some mem =>
      setTracee c { c.tracee with mem := mem }
      return true

def getRegs (pid : Int) : Cmd κ (Option UserRegs) := do
  emit (.ptrace pid .getRegs)
  return ((← get).stopped? pid).map fun c => c.tracee.regs

def setRegs (pid : Int) (regs : UserRegs) : Cmd κ Bool := do
  emit (.ptrace pid (.setRegs regs))
  match (← get).stopped? pid with
  | none => return false
  | some c =>
    setTracee c { c.tracee with regs := regs }
    return true

/-- The debugger always passes signal 0. -/
def Resume.request : Resume → Request
  | .singleStep => .singleStep 0
  | .cont => .cont 0

def resumeChild (pid : Int) (how : Resume) : Cmd κ Bool := do
  emit (.ptrace pid how.request)
  match (← get).stopped? pid with
  | none => return false
  | some c =>
    modify fun w => { w with child := some { c with resumed := some how } }
    return true

/-- The status `waitpid` stores, or nothing when it fails. -/
def waitpid (n : Nat) (pid : Int) : Cmd κ (Option Nat) := do
  match (← get).child with
  | none => return none
  | some c =>
    if c.pid ≠ pid then
      return none
    else
      match c.resumed with
      | none => throw .waiting
      | some how =>
        match c.prog.answer n how c.tracee with
        | none => throw .waiting
        | some e =>
          modify fun w =>
            { w with child := e.tracee?.map fun t => { c with tracee := t, resumed := none } }
          return some e.status

end UnixProgramming.Sdb
