import Mathlib.Tactic.SplitIfs
import UnixProgramming.Libmini.Kernel

/-!
# The wrappers of the system calls

A wrapper makes its system call and turns what comes back in `rax` into a result and
`errno`. The C wrappers do this with one of two macros, `open` in assembly. What they
return is what the caller expects, but for `getcwd`: the kernel returns the length of the
path, and `getcwd` returns that as a pointer.
-/

namespace UnixProgramming.Libmini

section Types

/-- The types that a result passes through. `pid_t`, `uid_t` and `gid_t` are `int` here. -/
inductive CType where
  | int
  | uint
  | ssize
  | pointer
  deriving DecidableEq

/-- The conversion of an integer to the type. -/
def CType.convert : CType → Int → Int
  | .int, v => v.bmod (2 ^ 32)
  | .uint, v => v % 2 ^ 32
  | .ssize, v => v.bmod (2 ^ 64)
  | .pointer, v => v % 2 ^ 64

theorem CType.convert_convert (t : CType) (v : Int) : t.convert (t.convert v) = t.convert v := by
  cases t with
  | int => exact Int.bmod_bmod
  | uint => exact Int.emod_emod_of_dvd v (dvd_refl _)
  | ssize => exact Int.bmod_bmod
  | pointer => exact Int.emod_emod_of_dvd v (dvd_refl _)

end Types

section Macros

/-- What a wrapper returns, and `errno` after it. -/
structure Answer where
  value : Int
  errno : Word
  deriving DecidableEq

/-- `WRAPPER_RETval(type)`. -/
def retVal (type : CType) (ret : Word) : Answer :=
  if ret.toInt < 0 then ⟨-1, -ret⟩ else ⟨type.convert ret.toInt, 0⟩

/-- `WRAPPER_RETptr(type)`; `NULL` is 0. -/
def retPtr (type : CType) (ret : Word) : Answer :=
  if ret.toInt < 0 then ⟨0, -ret⟩ else ⟨type.convert ret.toInt, 0⟩

/-- `open` in `libmini64.asm` behind the call of `sys_open`: `cmp rax, 0` and `jge`. -/
def openReturn (rax : Word) : Answer :=
  if 0 ≤ rax.toInt then ⟨rax.toInt, 0⟩ else ⟨-1, -rax⟩

end Macros

/-- The registers of a system call. -/
structure SysCall where
  number : Nat
  args : List Word
  deriving DecidableEq

/-- The system call that a wrapper makes, what it does with the result, and its own
result type. -/
structure Wrapper where
  call : SysCall
  ending : Word → Answer
  type : CType

/-- The conversion to the type of the wrapper comes with the `return`. -/
def Wrapper.run (w : Wrapper) (ret : Word) : Answer :=
  { w.ending ret with value := w.type.convert (w.ending ret).value }

/-- The wrapper keeps errors and results apart, with a value for all errors. -/
def Wrapper.Tells (w : Wrapper) (failure : Int) (value : Word → Int) : Prop :=
  ∀ ret : Word, w.run ret = if ret.toInt < 0 then ⟨failure, -ret⟩ else ⟨value ret, 0⟩

theorem tells_openReturn (call : SysCall) (type : CType) :
    Wrapper.Tells ⟨call, openReturn, type⟩ (type.convert (-1)) fun ret => type.convert ret.toInt := by
  intro ret
  simp only [Wrapper.run, openReturn]
  split_ifs <;> first | rfl | omega

namespace Wrapper

/-- A wrapper that returns an `int` through `WRAPPER_RETval(int)`. -/
def returningInt (number : Nat) (args : List Word) : Wrapper :=
  ⟨⟨number, args⟩, retVal .int, .int⟩

/-- A wrapper with a byte count for its result. -/
def returningSsize (number : Nat) (args : List Word) : Wrapper :=
  ⟨⟨number, args⟩, retVal .ssize, .ssize⟩

/-- A wrapper that returns an `int` through `WRAPPER_RETval(unsigned int)`. -/
def returningUint (number : Nat) (args : List Word) : Wrapper :=
  ⟨⟨number, args⟩, retVal .uint, .int⟩

def read (fd buf count : Word) : Wrapper := returningSsize 0 [fd, buf, count]

def write (fd buf count : Word) : Wrapper := returningSsize 1 [fd, buf, count]

def «open» (filename flags mode : Word) : Wrapper :=
  ⟨⟨2, [filename, flags, mode]⟩, openReturn, .int⟩

def close (fd : Word) : Wrapper := returningInt 3 [fd]

def mmap (addr len prot flags fd off : Word) : Wrapper :=
  ⟨⟨9, [addr, len, prot, flags, fd, off]⟩, retPtr .pointer, .pointer⟩

def mprotect (addr len prot : Word) : Wrapper := returningInt 10 [addr, len, prot]

def munmap (addr len : Word) : Wrapper := returningInt 11 [addr, len]

def pipe (filedes : Word) : Wrapper := returningInt 22 [filedes]

def dup (filedes : Word) : Wrapper := returningInt 32 [filedes]

def dup2 (oldfd newfd : Word) : Wrapper := returningInt 33 [oldfd, newfd]

def pause : Wrapper := returningInt 34 []

def fork : Wrapper := returningInt 57 []

def getcwd (buf size : Word) : Wrapper := ⟨⟨79, [buf, size]⟩, retPtr .pointer, .pointer⟩

def chdir (pathname : Word) : Wrapper := returningInt 80 [pathname]

def rename (oldname newname : Word) : Wrapper := returningInt 82 [oldname, newname]

def mkdir (pathname mode : Word) : Wrapper := returningInt 83 [pathname, mode]

def rmdir (pathname : Word) : Wrapper := returningInt 84 [pathname]

def creat (pathname mode : Word) : Wrapper := returningInt 85 [pathname, mode]

def link (oldname newname : Word) : Wrapper := returningInt 86 [oldname, newname]

-- `gensys 88`, although the call of that number is `symlink`
def unlink (pathname : Word) : Wrapper := returningInt 88 [pathname]

def readlink (path buf bufsz : Word) : Wrapper := returningSsize 89 [path, buf, bufsz]

def chmod (filename mode : Word) : Wrapper := returningInt 90 [filename, mode]

def chown (filename user group : Word) : Wrapper := returningInt 92 [filename, user, group]

def umask (mask : Word) : Wrapper := returningInt 95 [mask]

def gettimeofday (tv tz : Word) : Wrapper := returningInt 96 [tv, tz]

def getuid : Wrapper := returningInt 102 []

def getgid : Wrapper := returningInt 104 []

def setuid (uid : Word) : Wrapper := returningInt 105 [uid]

def setgid (gid : Word) : Wrapper := returningInt 106 [gid]

def geteuid : Wrapper := returningInt 107 []

def getegid : Wrapper := returningInt 108 []

def alarm (seconds : Word) : Wrapper := ⟨⟨37, [seconds]⟩, retVal .uint, .uint⟩

def sigprocmask (how set oldset : Word) : Wrapper := returningUint 14 [how, set, oldset, 8]

def sigpending (set : Word) : Wrapper := returningUint 127 [set, 8]

/-- The last call of `sigaction`, with the addresses of its variables; `errno` is set anew
after it. -/
def sigaction (how kact oact : Word) : Wrapper := returningUint 13 [how, kact, oact, 8]

end Wrapper

section Contract

/-- The calls that are wrapped, with their arguments. -/
inductive LibcCall where
  | read (fd buf count : Word)
  | write (fd buf count : Word)
  | «open» (filename flags mode : Word)
  | close (fd : Word)
  | mmap (addr len prot flags fd off : Word)
  | mprotect (addr len prot : Word)
  | munmap (addr len : Word)
  | pipe (filedes : Word)
  | dup (filedes : Word)
  | dup2 (oldfd newfd : Word)
  | pause
  | fork
  | getcwd (buf size : Word)
  | chdir (pathname : Word)
  | rename (oldname newname : Word)
  | mkdir (pathname mode : Word)
  | rmdir (pathname : Word)
  | creat (pathname mode : Word)
  | link (oldname newname : Word)
  | unlink (pathname : Word)
  | readlink (path buf bufsz : Word)
  | chmod (filename mode : Word)
  | chown (filename user group : Word)
  | umask (mask : Word)
  | gettimeofday (tv tz : Word)
  | getuid
  | getgid
  | setuid (uid : Word)
  | setgid (gid : Word)
  | geteuid
  | getegid
  | alarm (seconds : Word)
  | sigprocmask (how set oldset : Word)
  | sigpending (set : Word)
  | sigaction (how kact oact : Word)

namespace LibcCall

def wrapper : LibcCall → Wrapper
  | .read fd buf count => Wrapper.read fd buf count
  | .write fd buf count => Wrapper.write fd buf count
  | .open filename flags mode => Wrapper.open filename flags mode
  | .close fd => Wrapper.close fd
  | .mmap addr len prot flags fd off => Wrapper.mmap addr len prot flags fd off
  | .mprotect addr len prot => Wrapper.mprotect addr len prot
  | .munmap addr len => Wrapper.munmap addr len
  | .pipe filedes => Wrapper.pipe filedes
  | .dup filedes => Wrapper.dup filedes
  | .dup2 oldfd newfd => Wrapper.dup2 oldfd newfd
  | .pause => Wrapper.pause
  | .fork => Wrapper.fork
  | .getcwd buf size => Wrapper.getcwd buf size
  | .chdir pathname => Wrapper.chdir pathname
  | .rename oldname newname => Wrapper.rename oldname newname
  | .mkdir pathname mode => Wrapper.mkdir pathname mode
  | .rmdir pathname => Wrapper.rmdir pathname
  | .creat pathname mode => Wrapper.creat pathname mode
  | .link oldname newname => Wrapper.link oldname newname
  | .unlink pathname => Wrapper.unlink pathname
  | .readlink path buf bufsz => Wrapper.readlink path buf bufsz
  | .chmod filename mode => Wrapper.chmod filename mode
  | .chown filename user group => Wrapper.chown filename user group
  | .umask mask => Wrapper.umask mask
  | .gettimeofday tv tz => Wrapper.gettimeofday tv tz
  | .getuid => Wrapper.getuid
  | .getgid => Wrapper.getgid
  | .setuid uid => Wrapper.setuid uid
  | .setgid gid => Wrapper.setgid gid
  | .geteuid => Wrapper.geteuid
  | .getegid => Wrapper.getegid
  | .alarm seconds => Wrapper.alarm seconds
  | .sigprocmask how set oldset => Wrapper.sigprocmask how set oldset
  | .sigpending set => Wrapper.sigpending set
  | .sigaction how kact oact => Wrapper.sigaction how kact oact

/-- The result type in `libmini.h`. -/
def returns : LibcCall → CType
  | .read _ _ _ | .write _ _ _ | .readlink _ _ _ => .ssize
  | .mmap _ _ _ _ _ _ | .getcwd _ _ => .pointer
  | .alarm _ => .uint
  | _ => .int

/-- What the call returns when the kernel reports an error: `NULL`, or -1 in its type. -/
def onFailure (c : LibcCall) : Int :=
  match c.returns with
  | .pointer => 0
  | type => type.convert (-1)

/-- What it returns for a result of the kernel that is no error. -/
def onSuccess (ret : Word) : LibcCall → Int
  | .getcwd buf _ => buf.toNat
  | c => c.returns.convert ret.toInt

/-- The wrapper reports an error as one and a result as the call's own, and `errno` tells
which of the two it is. -/
structure Honours (c : LibcCall) (ret : Word) : Prop where
  failure : ret.toInt < 0 → c.wrapper.run ret = ⟨c.onFailure, -ret⟩
  success : 0 ≤ ret.toInt → c.wrapper.run ret = ⟨c.onSuccess ret, 0⟩
  told : (c.wrapper.run ret).errno = 0 ↔ 0 ≤ ret.toInt

end LibcCall

/-- The number of the system call of that name. -/
def LibcCall.number : LibcCall → Nat
  | .read _ _ _ => 0
  | .write _ _ _ => 1
  | .open _ _ _ => 2
  | .close _ => 3
  | .mmap _ _ _ _ _ _ => 9
  | .mprotect _ _ _ => 10
  | .munmap _ _ => 11
  | .sigaction _ _ _ => 13
  | .sigprocmask _ _ _ => 14
  | .pipe _ => 22
  | .dup _ => 32
  | .dup2 _ _ => 33
  | .pause => 34
  | .alarm _ => 37
  | .fork => 57
  | .getcwd _ _ => 79
  | .chdir _ => 80
  | .rename _ _ => 82
  | .mkdir _ _ => 83
  | .rmdir _ => 84
  | .creat _ _ => 85
  | .link _ _ => 86
  | .unlink _ => 87
  | .readlink _ _ _ => 89
  | .chmod _ _ => 90
  | .chown _ _ _ => 92
  | .umask _ => 95
  | .gettimeofday _ _ => 96
  | .getuid => 102
  | .getgid => 104
  | .setuid _ => 105
  | .setgid _ => 106
  | .geteuid => 107
  | .getegid => 108
  | .sigpending _ => 127

/-- Only `unlink` makes another system call, `symlink`. -/
theorem number_eq_iff (c : LibcCall) :
    c.wrapper.call.number = c.number ↔ ∀ pathname, c ≠ .unlink pathname := by
  cases c with
  | unlink pathname => exact iff_of_false (show ¬ 88 = 87 by decide) fun other => other pathname rfl
  | _ => exact iff_of_true rfl fun _ => LibcCall.noConfusion

end Contract

end UnixProgramming.Libmini
