import UnixProgramming.Sdb.Debuggee

/-!
# Loading and starting a program: `elf_read`, `load`, `get_orig_code`, `start`

What is outside the debugger comes from a `Host`: the files, the programs that
`execlp` finds, the pids that `fork` hands out, the capstone decoder, the text of
`/proc/pid/maps` and the contents of memory that nobody has written.
-/

namespace UnixProgramming.Sdb

open Memory

/-- The first instruction of `cs_disasm`'s result. -/
structure Insn where
  size : Nat
  bytes : List Byte
  mnemonic : String
  opStr : String

/-- What variables and buffers hold before their first assignment. -/
structure Uninit where
  pid : Int
  entry : Addr
  size : BitVec 64
  status : Nat
  heap : Nat → Byte
  stack : Nat → Byte

structure Host (κ : Type) where
  file : String → Option (List Byte)
  exec : String → Option (Program κ)
  fork : Nat → Option Int
  csOpen : Bool
  csDisasm : List Byte → Addr → Option Insn
  maps : Int → Option (List Char)
  uninit : Uninit

variable {κ : Type}

section Elf

/-- The little-endian number in `n` bytes from `off` on. -/
def field (bytes : Nat → Byte) (off : Nat) : Nat → Nat
  | 0 => 0
  | n + 1 => (bytes off).toNat + 256 * field bytes (off + 1) n

/-- `strcmp(names, ".text") == 0`, or nothing when it runs out of the string table. -/
def matchesName (strtab : Nat → Option Byte) : Nat → List Byte → Option Bool
  | _, [] => some true
  | k, b :: bs =>
    match strtab k with
    | none => none
    | some c => if c = b then matchesName strtab (k + 1) bs else some false

def textName : List Byte := [0x2e, 0x74, 0x65, 0x78, 0x74, 0x00]

/-- The loop over the section headers, from number `i` on. -/
def findText (table : Nat → Byte) (strtab : Nat → Option Byte) (entry : Addr) (info : ProgInfo)
    (i : Nat) : Nat → Option ProgInfo
  | 0 => some info
  | n + 1 =>
    match matchesName strtab (field table (64 * i) 4) textName with
    | none => none
    | some true =>
      let size := BitVec.ofNat 64 (field table (64 * i + 32) 8)
      findText table strtab entry { info with entry := entry, size := size } (i + 1) n
    | some false => findText table strtab entry info (i + 1) n

/-- What the headers in `file` say about `.text`. A section header or name outside
its table is an access outside an object: nothing. A `fseek` to a negative offset
fails and leaves the position where it was. -/
def readHeaders (junk : Uninit) (file : List Byte) (info : ProgInfo) : Option ProgInfo :=
  let header k := file.getD k 0
  let shoff := field header 40 8
  let shnum := field header 60 2
  let shstrndx := field header 62 2
  let tableStart := if shoff < 2 ^ 63 then shoff else 64
  let table k := file.getD (tableStart + k) (junk.heap k)
  let strOffset := field table (64 * shstrndx + 24) 8
  let strSize := field table (64 * shstrndx + 32) 8
  let strStart := if strOffset < 2 ^ 63 then strOffset else 0
  let strtab k := if k < strSize then some (file.getD (strStart + k) (junk.stack k)) else none
  if shnum ≤ shstrndx then none
  else findText table strtab (BitVec.ofNat 64 (field header 24 8)) info 0 shnum

def elfRead (host : Host κ) (path : String) : Cmd κ ProgInfo := do
  let junk := host.uninit
  let info : ProgInfo := { ProgInfo.empty with pid := junk.pid, entry := junk.entry, size := junk.size }
  match host.file path with
  | none =>
    stderr ("** Unable to open '" ++ path ++ "': ")
    throw (.exit (-1))
  | some file =>
    if file.length < 64 then
      stderr "** fread: "
      throw (.exit (-1))
    else if file.getD 0 0 = 0x7f ∨ file.getD 1 0 = 0x45 then
      match readHeaders junk file info with
      | none => throw .outOfBounds
      | some info => return info
    else
      return info

end Elf

def load (host : Host κ) (path : String) : Cmd κ Unit := do
  if (← get).info.state ≠ .noload then
    stderr "** state must be NOT LOADED.\n"
  else
    let info ← elfRead host path
    stderr ("** program '" ++ path ++ "' loaded. entry point 0x" ++ hex info.entry ++ "\n")
    modify fun w => { w with info := { info with state := .loaded, path := path } }

section Sweep

/-- `k` words of the window from `ptr` on; after a failed read the rest stays zero. -/
def readWindow (pid : Int) (ptr : Addr) : Nat → Cmd κ (List Byte)
  | 0 => return []
  | k + 1 => do
    match ← peekText? pid ptr with
    | none => return List.replicate (8 * (k + 1)) 0
    | some word => return (List.range 8).map (byte word) ++ (← readWindow pid (ptr + 8) k)

/-- Records the first instruction decoded at `addr`; false for -1. The loop that
fills `buf` does not run when `addr + sizeof(buf)` wraps around. -/
def disassemble (host : Host κ) (pid : Int) (addr : Addr) : Cmd κ Bool := do
  let buf ← if addr < addr + 64 then readWindow pid addr 8 else pure (List.replicate 64 0)
  match host.csDisasm (buf.take 63) addr with
  | none =>
    stderr "** cs_disasm error.\n"
    return false
  | some insn =>
    let ins : Instruction1 := ⟨addr, insn.bytes, insn.size, insn.mnemonic, insn.opStr⟩
    modify fun w => { w with origInstructions := w.origInstructions ++ [ins] }
    return true

/-- The loop of `get_orig_code`. -/
def sweep (host : Host κ) (pid : Int) (stop : Addr) : Nat → Addr → Cmd κ Unit
  | 0, addr => if addr < stop then throw .waiting else return
  | n + 1, addr => do
    if addr < stop then
      if ← disassemble host pid addr then
        match (← get).origInstructions.getLast? with
        | none => throw .outOfBounds
        | some ins => sweep host pid stop n (addr + BitVec.ofNat 64 ins.size)

def getOrigCode (host : Host κ) (n : Nat) : Cmd κ Unit := do
  let info := (← get).info
  if host.csOpen then
    sweep host info.pid (info.entry + info.size) n info.entry
  else
    stderr "** cs_open error.\n"

end Sweep

/-- A child whose `execlp` fails exits with -1, and the assertion that it stopped
fails in the debugger. -/
def start (host : Host κ) (n : Nat) : Cmd κ Unit := do
  let info := (← get).info
  if info.state ≠ .loaded then
    stderr "** state must be LOADED.\n"
  else
    emit .fork
    match host.fork (← get).forks with
    | none => errquit "** fork error"
    | some pid =>
      modify fun w => { w with forks := w.forks + 1 }
      match host.exec info.path with
      | none => throw .abort
      | some prog =>
        modify fun w => { w with child := some ⟨pid, prog, prog.image, none⟩ }
        emit (.ptrace pid .setOptions)
        stderr ("** pid " ++ toString pid ++ "\n")
        modify fun w => { w with info := { w.info with state := .running, pid := pid } }
        getOrigCode host n

end UnixProgramming.Sdb
