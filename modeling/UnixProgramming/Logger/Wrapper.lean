import UnixProgramming.Foundation.Stateful
import UnixProgramming.Logger.Monitor

/-!
# The wrappers

Every wrapper of `logger.so` looks the real function up, calls it through a pointer whose
type it declares itself, stores the result in a variable of its own and returns that.
Around the call it runs other library functions for the line it logs. These set `errno`
when they fail, and may leave the buffers that the wrapper gives them.
-/

namespace UnixProgramming.Logger

open Stateful

/-- The types that a result passes through. -/
inductive CType where
  | int
  | ssize
  | size
  | pointer
  deriving DecidableEq

/-- The conversion of an integer to the type; `int` has 32 bits. -/
def CType.convert : CType → Int → Int
  | .int, v => v.bmod (2 ^ 32)
  | .ssize, v => v.bmod (2 ^ 64)
  | .size, v | .pointer, v => v % 2 ^ 64

inductive Arg where
  | str (s : String)
  | int (i : Int)
  | uint (w : BitVec 32)
  | ulong (w : BitVec 64)
  deriving DecidableEq

/-- A call of the function that `dlsym` finds under `symbol`. -/
structure RealCall where
  symbol : String
  args : List Arg
  deriving DecidableEq

/-- `realpath` finds the path, or fails and leaves some bytes in the buffer. -/
inductive Resolution where
  | found (path : String)
  | failed (errno : Int) (written : Nat)

/-- What the library answers. An error code stands for a call that fails and sets `errno`
to it. What can change with the real call depends on the real calls made before. -/
structure Libc where
  finds : String → Bool
  /-- the result register, and the error -/
  real : RealCall → BitVec 64 × Option Int
  realpath : List RealCall → String → Resolution
  fileno : Stream → Int × Option Int
  readlink : List RealCall → Int → Option Int
  getenv : Option Int
  dprintf : Int → Option Int
  dlclose : Option Int
  /-- the readable memory of the program -/
  byte : List RealCall → Memory.Addr → Option (BitVec 8)

/-- What a wrapper can do to the program. -/
structure Caller where
  errno : Int
  calls : List RealCall

inductive Fault where
  | unbound
  | overflow
  | unreadable
  | noOutputFd

abbrev Wrap := EStateM Fault Caller

section Helpers

def isprint (c : BitVec 8) : Bool := 0x20 ≤ c ∧ c ≤ 0x7e

/-- The loop of `checkbuf` with `left` more characters to go. The byte is read before its
index is compared with the length of the buffer. -/
def checkbuf (byte : Memory.Addr → Option (BitVec 8)) (buf : Memory.Addr) :
    Nat → Option (List (BitVec 8))
  | 0 => (byte (buf + 32)).map fun _ => []
  | left + 1 => (byte (buf + BitVec.ofNat 64 (31 - left))).bind fun c =>
      if c = 0 then
        some []
      else
        (checkbuf byte buf left).map fun rest => (if isprint c then c else 0x2e) :: rest

/-- The library calls of a wrapper next to the real one. -/
inductive Helper where
  /-- `realpath` into a buffer of that size, or else `strcpy` -/
  | realpath (path : String) (size : Nat)
  | readlink (fd : Int)
  | readlinkOf (stream : Stream)
  | checkbuf (buf : Memory.Addr)
  | dprintf
  | dlclose

/-- A call that sets `errno` if it fails. -/
def report (failure : Option Int) : Wrap Unit :=
  modify fun s => { s with errno := failure.getD s.errno }

def guard (holds : Bool) (fault : Fault) : Wrap Unit := if holds then pure () else throw fault

namespace Helper

variable (libc : Libc)

def run : Helper → Wrap Unit
  | .realpath path size => do
    match libc.realpath (← get).calls path with
    | .found resolved => guard (resolved.utf8ByteSize < size) .overflow
    | .failed errno written =>
      report (some errno)
      guard (written ≤ size) .overflow
      guard (path.utf8ByteSize < size) .overflow
  | .readlink fd => do report (libc.readlink (← get).calls fd)
  | .readlinkOf stream => do
    report (libc.fileno stream).2
    report (libc.readlink (← get).calls (libc.fileno stream).1)
  | .checkbuf buf => do guard (Logger.checkbuf (libc.byte (← get).calls) buf 32).isSome .unreadable
  | .dprintf =>
    match libc.getenv with
    | none => throw .noOutputFd
    | some fd => report (libc.dprintf fd)
  | .dlclose => report libc.dlclose

/-- The helper stays within its buffers. -/
def Safe (calls : List RealCall) : Helper → Prop
  | .realpath path size =>
    match libc.realpath calls path with
    | .found resolved => resolved.utf8ByteSize < size
    | .failed _ written => written ≤ size ∧ path.utf8ByteSize < size
  | .readlink _ | .readlinkOf _ | .dlclose => True
  | .checkbuf buf => (Logger.checkbuf (libc.byte calls) buf 32).isSome
  | .dprintf => libc.getenv.isSome

/-- The error that the helper sets. -/
def failure (calls : List RealCall) : Helper → Option Int
  | .realpath path _ =>
    match libc.realpath calls path with
    | .found _ => none
    | .failed errno _ => some errno
  | .readlink fd => libc.readlink calls fd
  | .readlinkOf stream => (libc.readlink calls (libc.fileno stream).1).or (libc.fileno stream).2
  | .checkbuf _ => none
  | .dprintf => libc.getenv.bind libc.dprintf
  | .dlclose => libc.dlclose

end Helper

end Helpers

/-- The parts in which the wrappers differ: the function looked up and the arguments passed,
the result type of the pointer, the type of the variable and that of the wrapper, and
the helpers before and after the call. -/
structure Wrapper where
  symbol : String
  args : List Arg
  old : CType
  retval : CType
  returned : CType
  before : List Helper
  after : List Helper

def Wrapper.real (w : Wrapper) : RealCall := ⟨w.symbol, w.args⟩

/-- Every wrapper ends with the line and `dlclose`. -/
def Wrapper.ending (w : Wrapper) : List Helper := w.after ++ [.dprintf, .dlclose]

/-- A call through a pointer to a function with result type `old`. -/
def RealCall.run (libc : Libc) (c : RealCall) (old : CType) : Wrap Int := do
  modify fun s => { s with calls := s.calls ++ [c] }
  report (libc.real c).2
  return old.convert (libc.real c).1.toInt

def Wrapper.run (libc : Libc) (w : Wrapper) : Wrap Int := do
  guard (libc.finds w.symbol) .unbound
  forM w.before (Helper.run libc)
  let retval ← w.real.run libc w.old
  forM w.ending (Helper.run libc)
  return w.returned.convert (w.retval.convert retval)

section Wrappers

def O_CREAT : BitVec 32 := 0x40

def O_TMPFILE : BitVec 32 := 0x410000

/-- `__OPEN_NEEDS_MODE`. -/
def OPEN_NEEDS_MODE (flags : BitVec 32) : Bool :=
  flags &&& O_CREAT ≠ 0 ∨ flags &&& O_TMPFILE = O_TMPFILE

/-- The wrappers that resolve the path after the call. -/
def resolvingAfter (symbol : String) (args : List Arg) (pathname : String) (size : Nat) : Wrapper :=
  ⟨symbol, args, .int, .int, .int, [], [.realpath pathname size]⟩

/-- Those that resolve it before. -/
def resolvingBefore (symbol : String) (args : List Arg) (returned : CType) (pathname : String) :
    Wrapper :=
  ⟨symbol, args, returned, returned, returned, [.realpath pathname 200], []⟩

def chmod (pathname : String) (mode : BitVec 32) : Wrapper :=
  resolvingAfter "chmod" [.str pathname, .uint mode] pathname 1024

def creat (pathname : String) (mode : BitVec 32) : Wrapper :=
  resolvingAfter "creat" [.str pathname, .uint mode] pathname 200

def creat64 (pathname : String) (mode : BitVec 32) : Wrapper :=
  resolvingAfter "creat64" [.str pathname, .uint mode] pathname 200

def chown (pathname : String) (owner group : BitVec 32) : Wrapper :=
  resolvingAfter "chown" [.str pathname, .uint owner, .uint group] pathname 200

def remove (pathname : String) : Wrapper :=
  resolvingBefore "remove" [.str pathname] .int pathname

def «open» (path : String) (flags mode : BitVec 32) : Wrapper :=
  let mode := if OPEN_NEEDS_MODE flags then mode else 0
  resolvingBefore "open" [.str path, .uint flags, .uint mode] .int path

def open64 (path : String) (flags mode : BitVec 32) : Wrapper :=
  let mode := if OPEN_NEEDS_MODE flags then mode else 0
  resolvingBefore "open64" [.str path, .uint flags, .uint mode] .int path

def rename (oldpath newpath : String) : Wrapper :=
  ⟨"rename", [.str oldpath, .str newpath], .int, .int, .int,
    [.realpath oldpath 200], [.realpath newpath 200]⟩

def write (fd : Int) (buf : Memory.Addr) (count : BitVec 64) : Wrapper :=
  ⟨"write", [.int fd, .ulong buf, .ulong count], .ssize, .int, .ssize,
    [.readlink fd], [.checkbuf buf]⟩

def read (fd : Int) (buf : Memory.Addr) (count : BitVec 64) : Wrapper :=
  ⟨"read", [.int fd, .ulong buf, .ulong count], .int, .int, .ssize,
    [], [.readlink fd, .checkbuf buf]⟩

def close (fd : Int) : Wrapper := ⟨"close", [.int fd], .int, .int, .int, [.readlink fd], []⟩

def fread (ptr : Memory.Addr) (size nmemb : BitVec 64) (stream : Stream) : Wrapper :=
  ⟨"fread", [.ulong ptr, .ulong size, .ulong nmemb, .ulong stream], .size, .size, .size,
    [.readlinkOf stream], [.checkbuf ptr]⟩

def fopen (pathname mode : String) : Wrapper :=
  resolvingBefore "fopen" [.str pathname, .str mode] .pointer pathname

def fopen64 (pathname mode : String) : Wrapper :=
  resolvingBefore "fopen64" [.str pathname, .str mode] .pointer pathname

def fwrite (ptr : Memory.Addr) (size nitems : BitVec 64) (stream : Stream) : Wrapper :=
  ⟨"fwrite", [.ulong ptr, .ulong size, .ulong nitems, .ulong stream], .int, .int, .size,
    [.readlinkOf stream], [.checkbuf ptr]⟩

def fclose (stream : Stream) : Wrapper :=
  ⟨"fclose", [.ulong stream], .int, .int, .int, [.readlinkOf stream], []⟩

def tmpfile : Wrapper := ⟨"tmpfile", [], .pointer, .pointer, .pointer, [], []⟩

def tmpfile64 : Wrapper := ⟨"tmpfile64", [], .pointer, .pointer, .pointer, [], []⟩

def wrapper : Call → Wrapper
  | .chmod pathname mode => chmod pathname mode
  | .creat pathname mode => creat pathname mode
  | .creat64 pathname mode => creat64 pathname mode
  | .chown pathname owner group => chown pathname owner group
  | .remove pathname => remove pathname
  | .open path flags mode => «open» path flags mode
  | .open64 path flags mode => open64 path flags mode
  | .rename oldpath newpath => rename oldpath newpath
  | .write fd buf count => write fd buf count
  | .read fd buf count => read fd buf count
  | .close fd => close fd
  | .fread ptr size nmemb stream => fread ptr size nmemb stream
  | .fopen pathname mode => fopen pathname mode
  | .fopen64 pathname mode => fopen64 pathname mode
  | .fwrite ptr size nitems stream => fwrite ptr size nitems stream
  | .fclose stream => fclose stream
  | .tmpfile => tmpfile
  | .tmpfile64 => tmpfile64

end Wrappers

section Interface

/-- What the caller asks for. The mode of `open` counts only when the flags call for it. -/
def Call.real : Call → RealCall
  | .chmod pathname mode => ⟨"chmod", [.str pathname, .uint mode]⟩
  | .creat pathname mode => ⟨"creat", [.str pathname, .uint mode]⟩
  | .creat64 pathname mode => ⟨"creat64", [.str pathname, .uint mode]⟩
  | .chown pathname owner group => ⟨"chown", [.str pathname, .uint owner, .uint group]⟩
  | .remove pathname => ⟨"remove", [.str pathname]⟩
  | .open path flags mode =>
    ⟨"open", [.str path, .uint flags, .uint (if OPEN_NEEDS_MODE flags then mode else 0)]⟩
  | .open64 path flags mode =>
    ⟨"open64", [.str path, .uint flags, .uint (if OPEN_NEEDS_MODE flags then mode else 0)]⟩
  | .rename oldpath newpath => ⟨"rename", [.str oldpath, .str newpath]⟩
  | .write fd buf count => ⟨"write", [.int fd, .ulong buf, .ulong count]⟩
  | .read fd buf count => ⟨"read", [.int fd, .ulong buf, .ulong count]⟩
  | .close fd => ⟨"close", [.int fd]⟩
  | .fread ptr size nmemb stream => ⟨"fread", [.ulong ptr, .ulong size, .ulong nmemb, .ulong stream]⟩
  | .fopen pathname mode => ⟨"fopen", [.str pathname, .str mode]⟩
  | .fopen64 pathname mode => ⟨"fopen64", [.str pathname, .str mode]⟩
  | .fwrite ptr size nitems stream =>
    ⟨"fwrite", [.ulong ptr, .ulong size, .ulong nitems, .ulong stream]⟩
  | .fclose stream => ⟨"fclose", [.ulong stream]⟩
  | .tmpfile => ⟨"tmpfile", []⟩
  | .tmpfile64 => ⟨"tmpfile64", []⟩

/-- The result type in the headers. -/
def Call.returns : Call → CType
  | .write _ _ _ | .read _ _ _ => .ssize
  | .fread _ _ _ _ | .fwrite _ _ _ _ => .size
  | .fopen _ _ | .fopen64 _ _ | .tmpfile | .tmpfile64 => .pointer
  | _ => .int

/-- The value that the real function returns. -/
def Call.result (libc : Libc) (c : Call) : Int := c.returns.convert (libc.real c.real).1.toInt

theorem wrapper_real (c : Call) : (wrapper c).real = c.real := by cases c <;> rfl

end Interface

end UnixProgramming.Logger
