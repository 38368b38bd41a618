import UnixProgramming.Sdb.Debuggee

/-!
# `set_bp`, `del_bp`, `cont`, `si` and `set` of `sdb.cpp`

The commands that change the debuggee. `cont` is split where the source has its
comments: stepping over the restored breakpoint, resuming, looking for the
breakpoint that was hit, and reporting the end.
-/

namespace UnixProgramming.Sdb

open Memory

variable {κ : Type}

def mustBeRunning : String := "** state must be RUNNING.\n"

/-- The word is read before the list is searched, and its failure is not checked. -/
def setBp (addr : Addr) : Cmd κ Unit := do
  let info := (← get).info
  if info.state ≠ .running then
    stderr mustBeRunning
  else
    let code ← peekText info.pid addr
    if addr ∈ info.addrs then
      return
    else
      let bp : Breakpoint := ⟨addr, byte code 0⟩
      modify fun w => { w with info := { w.info with bpVec := w.info.bpVec ++ [bp] } }
      unless ← pokeText info.pid addr (setLow code int3) do
        errquit "ptrace(POKETEXT)"

/-- An `int` converted to the unsigned type of `info.bp_vec.size()`. -/
def bpIndex (idx : Int) : Nat := (idx % 2 ^ 64).toNat

def delBp (idx : Int) : Cmd κ Unit := do
  let info := (← get).info
  match info.bpVec[bpIndex idx]? with
  | none => stderr ("** Not found index: " ++ toString idx ++ " breakpoint\n")
  | some bp =>
    if (← get).bpRestore.addr = bp.addr then
      modify fun w => { w with bpRestore := .empty }
    let code ← peekText info.pid bp.addr
    unless ← pokeText info.pid bp.addr (setLow code bp.origPatch) do
      errquit "ptrace(POKETEXT)"
    modify fun w =>
      { w with info := { w.info with bpVec := w.info.bpVec.eraseIdx (bpIndex idx) } }
    stderr ("** breakpoint " ++ toString idx ++ " deleted.\n")

/-- `rip` is at the address of `bp_restore`: put the original byte back, execute
one instruction, and write the word read before the step with `int3` again. The
result is the status of this wait. -/
def stepOver (n : Nat) : Cmd κ Nat := do
  let pid := (← get).info.pid
  let bp := (← get).bpRestore
  let code ← peekText pid bp.addr
  unless ← pokeText pid bp.addr (setLow code bp.origPatch) do
    errquit "ptrace(POKETEXT)"
  unless ← resumeChild pid .singleStep do
    errquit "ptrace@SINGLESTEP"
  match ← waitpid n pid with
  | none => errquit "waitpid"
  | some status =>
    unless ← pokeText pid bp.addr (setLow code int3) do
      errquit "ptrace(POKETEXT)"
    modify fun w => { w with bpRestore := .empty }
    return status

/-- The loop over `bp_vec` after a stop; true when `cont` returns from inside it. -/
def reportHit (regs : UserRegs) : List Breakpoint → Cmd κ Bool
  | [] => return false
  | it :: rest => do
    if it.addr = rip regs - 1 then
      stderr "** breakpoint @\t"
      match (← get).origInstructions.find? fun ins => ins.addr = it.addr with
      | none => reportHit regs rest
      | some ins =>
        stderr (printInstruction ins)
        modify fun w => { w with bpRestore := it }
        unless ← setRegs (← get).info.pid (setRip regs (rip regs - 1)) do
          errquit "ptrace(SETREGS)"
        return true
    else
      reportHit regs rest

/-- The rest of `cont` once `waitpid` has stored `status`. -/
def afterWait (status : Nat) : Cmd κ Unit := do
  let info := (← get).info
  if wifstopped status then
    match ← getRegs info.pid with
    | none => errquit "ptrace(PTRACE_GETREGS)"
    | some regs =>
      if ← reportHit regs info.bpVec then
        return
  if wifexited status then
    if wifsignaled status then
      stderr (terminatedBySignal info.pid (status % 128))
    else
      stderr (terminatedNormally info.pid status)
    modify fun w => { w with info := .empty }

/-- `PTRACE_CONT` and the wait for it, neither checked. -/
def goOn (status n : Nat) : Cmd κ Unit := do
  let pid := (← get).info.pid
  let _ ← resumeChild pid .cont
  let stored ← waitpid n pid
  afterWait (stored.getD status)

/-- `uninit` is what the variable `status` holds before a `waitpid` has stored one. -/
def cont (uninit n : Nat) : Cmd κ Unit := do
  let info := (← get).info
  if info.state ≠ .running then
    stderr mustBeRunning
  else
    match ← getRegs info.pid with
    | none => errquit "ptrace(PTRACE_GETREGS)"
    | some regs =>
      if rip regs = (← get).bpRestore.addr then
        goOn (← stepOver n) n
      else
        goOn uninit n

def si (n : Nat) : Cmd κ Unit := do
  let info := (← get).info
  if info.state ≠ .running then
    stderr mustBeRunning
  else
    unless ← resumeChild info.pid .singleStep do
      errquit "ptrace@SINGLESTEP"
    let _ ← waitpid n info.pid

/-- The command `set reg val`. -/
def setReg (reg : String) (val : BitVec 64) : Cmd κ Unit := do
  let info := (← get).info
  if info.state ≠ .running then
    stderr "** program must be RUNNING.\n"
  else
    match ← getRegs info.pid with
    | none => errquit "ptrace(PTRACE_GETREGS)"
    | some regs =>
      match regsOffset.lookup reg with
      | none => stderr ("** Not found " ++ reg ++ "\n")
      | some offset =>
        let _ ← setRegs info.pid (Function.update regs offset val)

end UnixProgramming.Sdb
