import UnixProgramming.Libmini.Kernel

/-!
# The instructions of `libmini64.asm`

The part of x86-64 that `setjmp` and `longjmp` are written in. A routine is a
list of instructions; it ends with the first `ret` or `jmp`, which set `rip`.
-/

namespace UnixProgramming.Libmini

open Memory

inductive Reg where
  | rax | rbx | rcx | rdx | rsi | rdi | rbp | rsp | r8 | r9 | r10 | r11 | r12 | r13 | r14 | r15
  deriving DecidableEq

structure Machine where
  regs : Reg → Word
  rip : Word
  proc : Process

namespace Machine

def mem (s : Machine) : Addr → BitVec 8 := s.proc.mem

def set (s : Machine) (r : Reg) (v : Word) : Machine := { s with regs := Function.update s.regs r v }

def write (s : Machine) (a : Addr) (v : Word) : Machine :=
  { s with proc := { s.proc with mem := store s.mem a v } }

end Machine

inductive Instr where
  | pop (dst : Reg)
  | push (src : Reg)
  /-- `mov dst, [base+disp]` -/
  | load (dst base : Reg) (disp : Nat)
  /-- `mov [base+disp], src` -/
  | store (base : Reg) (disp : Nat) (src : Reg)
  /-- `mov dst, imm`; a 32-bit destination clears the upper half. -/
  | imm (dst : Reg) (v : Word)
  | syscall
  | ret
  /-- `jmp [base+disp]` -/
  | jmp (base : Reg) (disp : Nat)

/-- What the kernel does on `syscall`. -/
abbrev Kernel := Machine → Machine

namespace Machine

def pop (s : Machine) (dst : Reg) : Machine :=
  (s.set .rsp (s.regs .rsp + 8)).set dst (Memory.load s.mem (s.regs .rsp))

def push (s : Machine) (src : Reg) : Machine :=
  (s.set .rsp (s.regs .rsp - 8)).write (s.regs .rsp - 8) (s.regs src)

/-- `base+disp`. -/
def addr (s : Machine) (base : Reg) (disp : Nat) : Addr := s.regs base + BitVec.ofNat 64 disp

def run (kernel : Kernel) : List Instr → Machine → Machine
  | [], s => s
  | .pop dst :: is, s => run kernel is (s.pop dst)
  | .push src :: is, s => run kernel is (s.push src)
  | .load dst base disp :: is, s => run kernel is (s.set dst (Memory.load s.mem (s.addr base disp)))
  | .store base disp src :: is, s => run kernel is (s.write (s.addr base disp) (s.regs src))
  | .imm dst v :: is, s => run kernel is (s.set dst v)
  | .syscall :: is, s => run kernel is (kernel s)
  | .ret :: _, s =>
    { s.set .rsp (s.regs .rsp + 8) with rip := Memory.load s.mem (s.regs .rsp) }
  | .jmp base disp :: _, s => { s with rip := Memory.load s.mem (s.addr base disp) }

end Machine

/-- The kernel's side of `syscall` number 14, `rt_sigprocmask`; what it leaves in `rcx`
and `r11` is given by `clobber`. -/
def sigprocmaskCall (clobber : Machine → Word × Word) (s : Machine) : Machine :=
  let (ret, proc) := rtSigprocmask (s.regs .rdi) (s.regs .rsi) (s.regs .rdx) (s.regs .r10) s.proc
  { ((s.set .rax ret).set .rcx (clobber s).1).set .r11 (clobber s).2 with proc := proc }

end UnixProgramming.Libmini
