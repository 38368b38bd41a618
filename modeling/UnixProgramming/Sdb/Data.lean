import Mathlib.Data.List.Nodup
import Mathlib.Logic.Function.Basic
import UnixProgramming.Foundation.Memory
import UnixProgramming.Foundation.Text

/-!
# The data of `sdb.h`

Breakpoints, recorded instructions, the program record and the register table,
together with the texts that are printed from them.
-/

namespace UnixProgramming.Sdb

open Memory

abbrev Byte := BitVec 8

/-- `user_regs_struct` as the source reads it: an array of 27 words, `r15` first. -/
abbrev UserRegs := Fin 27 → BitVec 64

instance regs_neZero : NeZero 27 := ⟨by decide⟩

/-- `init_regs_offset`. -/
def regsOffset : List (String × Fin 27) :=
  [("r15", 0), ("r14", 1), ("r13", 2), ("r12", 3), ("rbp", 4), ("rbx", 5), ("r11", 6),
    ("r10", 7), ("r9", 8), ("r8", 9), ("rax", 10), ("rcx", 11), ("rdx", 12), ("rsi", 13),
    ("rdi", 14), ("rip", 16), ("flags", 18), ("rsp", 19)]

def rip (regs : UserRegs) : BitVec 64 := regs 16

def setRip (regs : UserRegs) (v : BitVec 64) : UserRegs := Function.update regs 16 v

@[simp] theorem rip_setRip (regs : UserRegs) (v : BitVec 64) : rip (setRip regs v) = v := by
  simp [rip, setRip]

@[simp] theorem setRip_setRip (regs : UserRegs) (v v' : BitVec 64) :
    setRip (setRip regs v) v' = setRip regs v' := by simp [setRip]

@[simp] theorem setRip_rip (regs : UserRegs) : setRip regs (rip regs) = regs := by
  simp [rip, setRip]

/-- The breakpoint instruction. -/
def int3 : Byte := 0xcc

structure Breakpoint where
  addr : Addr
  origPatch : Byte
  deriving DecidableEq

/-- `bp_restore = {}`. -/
def Breakpoint.empty : Breakpoint := ⟨0, 0⟩

/-- `class instruction1`. -/
structure Instruction1 where
  addr : Addr
  bytes : List Byte
  size : Nat
  opr : String
  opnd : String

inductive RunState where
  | noload
  | loaded
  | running
  deriving DecidableEq

structure ProgInfo where
  state : RunState
  pid : Int
  entry : Addr
  size : BitVec 64
  path : String
  bpVec : List Breakpoint

/-- `info = {}`. -/
def ProgInfo.empty : ProgInfo := ⟨.noload, 0, 0, 0, "", []⟩

def ProgInfo.addrs (info : ProgInfo) : List Addr := info.bpVec.map Breakpoint.addr

theorem mem_addrs {info : ProgInfo} {bp : Breakpoint} (h : bp ∈ info.bpVec) : bp.addr ∈ info.addrs :=
  List.mem_map_of_mem h

theorem addrs_eraseIdx {info : ProgInfo} {i : Nat} {bp : Breakpoint} (distinct : info.addrs.Nodup)
    (found : info.bpVec[i]? = some bp) (x : Addr) :
    x ∈ (info.bpVec.eraseIdx i).map Breakpoint.addr ↔ x ∈ info.addrs ∧ x ≠ bp.addr := by
  have at_i : info.addrs[i]? = some bp.addr := by simp [ProgInfo.addrs, found]
  obtain ⟨bound, value⟩ := List.getElem?_eq_some_iff.mp at_i
  rw [← List.eraseIdx_map, ← ProgInfo.addrs, ← List.Nodup.erase_getElem distinct i bound, value,
    distinct.mem_erase_iff]
  tauto

theorem mem_eraseIdx_of_ne {bps : List Breakpoint} {i : Nat} {bp bp' : Breakpoint}
    (found : bps[i]? = some bp) (listed : bp' ∈ bps) (other : bp'.addr ≠ bp.addr) :
    bp' ∈ bps.eraseIdx i := by
  obtain ⟨k, bound, value⟩ := List.getElem_of_mem listed
  refine List.mem_eraseIdx_iff_getElem.mpr ⟨k, bound, ?_, value⟩
  rintro rfl
  rw [List.getElem?_eq_getElem bound, value] at found
  exact other (congrArg Breakpoint.addr (Option.some.inj found))

section Text

/-- `%llx`. -/
def hex (w : BitVec 64) : String := String.ofList (Nat.toDigits 16 w.toNat)

/-- `%2.2x` for one byte. -/
def hexByte (b : Byte) : String :=
  String.ofList (Nat.toDigits 16 (b.toNat / 16) ++ Nat.toDigits 16 (b.toNat % 16))

/-- `%-ns`. -/
def padRight (n : Nat) (s : String) : String := s ++ String.ofList (List.replicate (n - s.length) ' ')

/-- `%ns`. -/
def padLeft (n : Nat) (s : String) : String := String.ofList (List.replicate (n - s.length) ' ') ++ s

def hexToChar (code : BitVec 64) : String :=
  String.ofList ((List.range 8).map fun i =>
    let ch := (byte code i).toNat
    if 32 ≤ ch ∧ ch ≤ 126 then Char.ofNat ch else '.')

def printInstruction (ins : Instruction1) : String :=
  let bytes := String.join ((ins.bytes.take ins.size).map fun b => hexByte b ++ " ")
  "\t0x" ++ hex ins.addr ++ ": " ++ padRight 32 bytes ++ "\t" ++ padRight 10 ins.opr ++ ins.opnd ++ "\n"

/-- The report of `cont` for a debuggee that exited; `code` is printed with `%d`. -/
def terminatedNormally (pid : Int) (code : Nat) : String :=
  "** child process " ++ toString pid ++ " terminiated normally (code " ++ toString code ++ ")\n"

theorem terminatedNormally_inj {pid : Int} {a b : Nat} :
    terminatedNormally pid a = terminatedNormally pid b ↔ a = b :=
  (String.append_left_inj _).trans ((String.append_right_inj _).trans Text.toString_nat_inj)

/-- The report of `cont` for a debuggee that a signal killed. -/
def terminatedBySignal (pid : Int) (sig : Nat) : String :=
  "** child process " ++ toString pid ++ " terminiated by signal (code " ++ toString sig ++ ")\n"

end Text

end UnixProgramming.Sdb
