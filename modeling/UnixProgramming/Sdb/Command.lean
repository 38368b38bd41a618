import UnixProgramming.Foundation.Stateful
import UnixProgramming.Foundation.Text
import UnixProgramming.Foundation.Transition
import UnixProgramming.Sdb.Control
import UnixProgramming.Sdb.Maps
import UnixProgramming.Sdb.Start

/-!
# The commands of `sdb`, and runs of the debugger

The remaining commands only print. `exec` is the dispatch of `main` on a parsed
command; a step of the debugger is a command that came back to the reading loop.
-/

namespace UnixProgramming.Sdb

open Memory Transition Stateful

variable {κ : Type}

/-- Five rows of two words. -/
def dump (addr : Addr) : Cmd κ Unit := do
  let pid := (← get).info.pid
  for i in [0, 1, 2, 3, 4] do
    let row : Addr := addr + BitVec.ofNat 64 (16 * i)
    stderr ("\t" ++ hex row ++ ": ")
    let first ← dumpWord pid row
    let second ← dumpWord pid (row + 8)
    stderr ("|" ++ first ++ second ++ "| \n")
where
  /-- Prints eight bytes and returns their column of characters. -/
  dumpWord (pid : Int) (addr : Addr) : Cmd κ String := do
    let code ← peekText pid addr
    for j in [0, 1, 2, 3, 4, 5, 6, 7] do
      stderr (hexByte (byte code j) ++ " ")
    return hexToChar code

/-- At most ten recorded instructions from the first one recorded at `addr`. -/
def disasm (host : Host κ) (addr : Addr) : Cmd κ Unit := do
  let w ← get
  if w.info.state ≠ .running then
    stderr mustBeRunning
  else if ¬ host.csOpen then
    stderr "** cs_open error.\n"
  else
    match w.origInstructions.findIdx? fun ins => ins.addr = addr with
    | none => stderr "**error addr given.\n"
    | some idx =>
      for ins in (w.origInstructions.drop idx).take 10 do
        stderr (printInstruction ins)

/-- The command `get reg`. -/
def printReg (reg : String) : Cmd κ Unit := do
  let info := (← get).info
  if info.state ≠ .running then
    stderr mustBeRunning
  else
    match ← getRegs info.pid with
    | none => errquit "ptrace(PTRACE_GETREGS)"
    | some regs =>
      match regsOffset.lookup reg with
      | none => stderr ("** Not found " ++ reg ++ "\n")
      | some offset =>
        stderr (reg ++ " = " ++ toString (regs offset).toInt ++ " (0x" ++ hex (regs offset) ++ ")\n")

/-- The rows of `getregs`; the column `RBP` shows word 4 as the source does. -/
def regColumns : List (List (String × Fin 27)) :=
  [[("RAX", 10), ("RBX", 4), ("RCX", 11), ("RDX", 12)],
    [("R8", 9), ("R9", 8), ("R10", 7), ("R11", 6)],
    [("R12", 3), ("R13", 2), ("R14", 1), ("R15", 0)],
    [("RDI", 14), ("RSI", 13), ("RBP", 4), ("RSP", 19)],
    [("RIP", 16), ("FLAGS", 18)]]

def printAllRegs : Cmd κ Unit := do
  let info := (← get).info
  if info.state ≠ .running then
    stderr mustBeRunning
  else
    match ← getRegs info.pid with
    | none => errquit "ptrace(PTRACE_GETREGS)"
    | some regs =>
      for row in regColumns do
        stderr (String.intercalate "\t" (row.map fun (name, i) => name ++ " " ++ hex (regs i)) ++ "\n")

def help : Cmd κ Unit := do
  for text in
    ["break \x7binstruction-address\x7d: add a break point", "cont: continue execution",
      "delete \x7bbreak-point-id\x7d: remove a break point",
      "disasm addr: disassemble instructions in a file or a memory region",
      "dump addr [length]: dump memory content", "exit: terminate the debugger",
      "get reg: get a single value from a register", "getregs: show registers",
      "break \x7binstruction-address\x7d: add a break point", "help: show this message",
      "list: list break points", "load \x7bpath/to/a/program\x7d: load a program",
      "run: run the program", "vmmap: show memory layout",
      "set reg val: get a single value to a register", "si: step into instruction",
      "start: start the program and stop at the first instruction"] do
    stderr ("- " ++ text ++ "\n")

/-- The command `list`. -/
def listBp : Cmd κ Unit := do
  let bpVec := (← get).info.bpVec
  if bpVec.isEmpty then
    stderr "** No breakpoint\n"
  else
    for (bp, i) in bpVec.zipIdx do
      stderr (" " ++ toString i ++ ": " ++ hex bp.addr ++ "\n")

/-- The array `perm`, which has no place for a NUL. -/
def permission (perm : BitVec 3) : List Char :=
  [if perm[2] then 'r' else '-', if perm[1] then 'w' else '-', if perm[0] then 'x' else '-']

/-- `%s` of an array: without a NUL in it the read goes on behind the array. -/
def cString (array : List Char) : Cmd κ String :=
  if Text.nul ∈ array then return String.ofList (Text.upToNul array) else throw .outOfBounds

def vmmap (host : Host κ) : Cmd κ Unit := do
  let info := (← get).info
  if info.state ≠ .running then
    stderr "** state must be NOT LOADED.\n"
  else
    match host.maps info.pid with
    | none => stderr "** cannot load memory mappings.\n"
    | some text =>
      match loadMaps text with
      | none => throw .outOfBounds
      | some [] => stderr "** cannot load memory mappings.\n"
      | some rows =>
        for row in rows do
          let perm ← cString (permission row.perm)
          stderr (padLeft 16 (hex row.first) ++ "-" ++ padLeft 16 (hex row.last) ++ " " ++
            perm ++ " " ++ row.name ++ "\n")

/-- The command `run`. -/
def runProgram (host : Host κ) (n : Nat) : Cmd κ Unit := do
  let info := (← get).info
  match info.state with
  | .running =>
    stderr ("** program '" ++ info.path ++ "' is already running.\n")
    cont host.uninit.status n
  | .loaded =>
    start host n
    cont host.uninit.status n
  | .noload => stderr "** state must be LOADED or RUNNING.\n"

inductive Command where
  | break (addr : Addr)
  | cont
  | delete (idx : Int)
  | disasm (addr : Addr)
  | dump (addr : Addr)
  | exit
  | get (reg : String)
  | getregs
  | help
  | list
  | load (path : String)
  | run
  | vmmap
  | set (reg : String) (val : BitVec 64)
  | si
  | start
  | unknown

/-- The dispatch in `main`; `n` is the fuel of its waits and of the instruction sweep. -/
def exec (host : Host κ) (n : Nat) : Command → Cmd κ Unit
  | .break addr => setBp addr
  | .cont => cont host.uninit.status n
  | .delete idx => delBp idx
  | .disasm addr => disasm host addr
  | .dump addr => dump addr
  | .exit => throw (.exit 0)
  | .get reg => printReg reg
  | .getregs => printAllRegs
  | .help => help
  | .list => listBp
  | .load path => load host path
  | .run => runProgram host n
  | .vmmap => vmmap host
  | .set reg val => setReg reg val
  | .si => si n
  | .start => start host n
  | .unknown => stderr "error commond\n"

/-- The debugger at the entry of `main`. -/
def World.init (host : Host κ) : World κ where
  info := { ProgInfo.empty with
    pid := host.uninit.pid, entry := host.uninit.entry, size := host.uninit.size }
  bpRestore := .empty
  origInstructions := []
  child := none
  forks := 0
  log := []

/-- The command came back to the reading loop. -/
def Step (host : Host κ) (c : Command) (w w' : World κ) : Prop :=
  ∃ n, exec host n c w = .ok () w'

/-- The worlds that some sequence of commands leads to. -/
def Reachable (host : Host κ) (w : World κ) : Prop :=
  ∃ cs, Run (Step host) cs (World.init host) w

/-- Commands one after the other, all with the same fuel. -/
def execAll (host : Host κ) (n : Nat) : List Command → Cmd κ Unit
  | [] => return
  | c :: cs => do
    exec host n c
    execAll host n cs

theorem run_of_execAll {host : Host κ} {n : Nat} {cs : List Command} {w w' : World κ}
    (ok : execAll host n cs w = .ok () w') : Run (Step host) cs w w' := by
  induction cs generalizing w with
  | nil =>
    cases ok
    exact .nil
  | cons c cs ih =>
    rw [execAll, bind_apply] at ok
    cases first : exec host n c w with
    | error e v => simp [first] at ok
    | ok u v =>
      rw [first] at ok
      exact .cons ⟨n, first⟩ (ih ok)

/-- The world after the commands, from the entry of `main`. -/
def session (host : Host κ) (n : Nat) (cs : List Command) : Option (World κ) :=
  match execAll host n cs (World.init host) with
  | .ok _ w => some w
  | .error _ _ => none

theorem run_of_session {host : Host κ} {n : Nat} {cs : List Command} {w : World κ}
    (h : session host n cs = some w) : Run (Step host) cs (World.init host) w := by
  unfold session at h
  split at h
  · next w' ok =>
    cases h
    exact run_of_execAll ok
  · cases h

/-- The world after one more command. -/
def next? (host : Host κ) (n : Nat) (c : Command) (w : World κ) : Option (World κ) :=
  match exec host n c w with
  | .ok _ w' => some w'
  | .error _ _ => none

theorem exec_of_next? {host : Host κ} {n : Nat} {c : Command} {w w' : World κ}
    (h : next? host n c w = some w') : exec host n c w = .ok () w' := by
  unfold next? at h
  split at h
  · next v ok =>
    cases h
    exact ok
  · cases h

end UnixProgramming.Sdb
