import UnixProgramming.Foundation.Printf
import UnixProgramming.Logger.Interposition

/-!
# The line about a call

What a wrapper passes to `dprintf`, with its format. The paths and the contents of buffers
come from the helpers that it has called; numbers go into the variable arguments as they
are, and the format alone says how they are read.
-/

namespace UnixProgramming.Logger

open Printf

/-- A library, with the texts that it leaves for the line. -/
structure Library extends Libc where
  /-- what `readlink` of a descriptor leaves in a cleared buffer of that size -/
  link : List RealCall → Int → Nat → List Char
  /-- the bytes behind `checked_buf`, up to a NUL -/
  behind : List RealCall → List (BitVec 8)
  /-- the number of bytes that the real function stores in the caller's buffer -/
  transferred : RealCall → Nat

/-- `resolved_path` after `realpath`, and after the `strcpy` where that fails. -/
def Libc.resolvedPath (libc : Libc) (calls : List RealCall) (path : String) : String :=
  match libc.realpath calls path with
  | .found resolved => resolved
  | .failed _ _ => path

/-- `/proc/self/fd/` and the number of the descriptor, resolved. -/
def Library.streamLink (lib : Library) (stream : Stream) (size : Nat) : List Char :=
  lib.link [] (lib.fileno stream).1 size

/-- The string in `checked_buf`: the array has 32 bytes, and `%s` goes on to a NUL. -/
def Library.checkedBuf (lib : Library) (calls : List RealCall) (buf : Memory.Addr) :
    Option (List (BitVec 8)) :=
  (checkbuf (lib.byte calls) buf 32).map fun stored =>
    if stored.length < 32 then stored else stored ++ lib.behind calls

/-- A library in which every helper succeeds, and no descriptor has a name. -/
def quiet (rax : BitVec 64) (failure : Option Int) : Library where
  toLibc := calm rax failure
  link _ _ _ := []
  behind _ := []
  transferred _ := rax.toNat

def chars (bytes : List (BitVec 8)) : List Char := bytes.map fun b => Char.ofNat b.toNat

namespace Call

/-- The variable that the wrapper keeps the result in. -/
def retval (libc : Libc) (c : Call) : Int :=
  (wrapper c).retval.convert ((wrapper c).old.convert (libc.real c.real).1.toInt)

def format : Call → String
  | .chmod _ _ => "[logger] chmod(\"%s\", %o) = %d\n"
  | .creat _ _ => "[logger] creat(\"%s\", %o) = %d\n"
  | .creat64 _ _ => "[logger] creat64(\"%s\", %o) = %d\n"
  | .chown _ _ _ => "[logger] chown(\"%s\", %o, %o) = %d\n"
  | .remove _ => "[logger] remove(\"%s\") = %d\n"
  | .open _ _ _ => "[logger] open(\"%s,\" %o, %o) = %d\n"
  | .open64 _ _ _ => "[logger] open64(\"%s,\" %o, %o) = %d\n"
  | .rename _ _ => "[logger] rename(\"%s\",  \"%s\") = %d\n"
  | .write _ _ _ => "[logger] write(\"%s \", \"%s\", %d) = %d\n"
  | .read _ _ _ => "[logger] read(\"%s\", \"%s\", %d) = %d\n"
  | .close _ => "[logger] close(\"%s\") = %d\n"
  | .fread _ _ _ _ => "[logger] fread(\"%s\", %d, %d, \"%s\") = %d\n"
  | .fopen _ _ => "[logger] fopen(\"%s\", \"%s\") = %p\n"
  | .fopen64 _ _ => "[logger] fopen64(\"%s\", \"%s\") = %p\n"
  | .fwrite _ _ _ _ => "[logger] fwrite(\"%s\", %d, %d, \"%s\") = %d\n"
  | .fclose _ => "[logger] fclose(\"%s\") = %d\n"
  | .tmpfile => "[logger] tmpfile() = %p\n"
  | .tmpfile64 => "[logger] tmpfile64() = %p\n"

/-- The conversions in the format. -/
def conversions : Call → List Char
  | .chmod _ _ | .creat _ _ | .creat64 _ _ => ['s', 'o', 'd']
  | .chown _ _ _ | .open _ _ _ | .open64 _ _ _ => ['s', 'o', 'o', 'd']
  | .remove _ | .close _ | .fclose _ => ['s', 'd']
  | .rename _ _ => ['s', 's', 'd']
  | .write _ _ _ | .read _ _ _ => ['s', 's', 'd', 'd']
  | .fread _ _ _ _ | .fwrite _ _ _ _ => ['s', 'd', 'd', 's', 'd']
  | .fopen _ _ | .fopen64 _ _ => ['s', 's', 'p']
  | .tmpfile | .tmpfile64 => ['p']

/-- The caller's buffer, where a wrapper logs one. -/
def buffer : Call → Option Memory.Addr
  | .write _ buf _ | .read _ buf _ | .fread buf _ _ _ | .fwrite buf _ _ _ => some buf
  | _ => none

/-- What is passed behind the format; `checked` is the string in `checked_buf`. -/
def varArgs (lib : Library) (checked : List Char) (c : Call) : List VarArg :=
  let retval := VarArg.int (c.retval lib.toLibc)
  let resolved (calls : List RealCall) (path : String) : VarArg :=
    .str (lib.resolvedPath calls path).toList
  match c with
  | .chmod pathname mode | .creat pathname mode | .creat64 pathname mode =>
    [resolved [c.real] pathname, .uint mode, retval]
  | .chown pathname owner group => [resolved [c.real] pathname, .uint owner, .uint group, retval]
  | .remove pathname => [resolved [] pathname, retval]
  | .open path flags mode | .open64 path flags mode =>
    [resolved [] path, .uint flags, .uint (if OPEN_NEEDS_MODE flags then mode else 0), retval]
  | .rename oldpath newpath => [resolved [] oldpath, resolved [c.real] newpath, retval]
  | .write fd _ count => [.str (lib.link [] fd 4096), .str checked, .word count, retval]
  | .read fd _ count => [.str (lib.link [c.real] fd 4096), .str checked, .word count, retval]
  | .close fd => [.str (lib.link [] fd 4096), retval]
  | .fread _ size nmemb stream =>
    [.str checked, .word size, .word nmemb, .str (lib.streamLink stream 4096), retval]
  | .fopen pathname mode | .fopen64 pathname mode =>
    [resolved [] pathname, .str mode.toList, retval]
  | .fwrite _ size nitems stream =>
    [.str checked, .word size, .word nitems, .str (lib.streamLink stream 4096), retval]
  | .fclose stream => [.str (lib.streamLink stream 1024), retval]
  | .tmpfile | .tmpfile64 => [retval]

/-- The string in `checked_buf`, empty where there is no such array. -/
def checked (lib : Library) (c : Call) : Option (List Char) :=
  match c.buffer with
  | some buf => (lib.checkedBuf [c.real] buf).map chars
  | none => some []

/-- The line that is written. -/
def line (lib : Library) (c : Call) : Option (List Char) :=
  (c.checked lib).bind fun checked => printf (directives c.format.toList) (c.varArgs lib checked)

/-- The texts in it that stand for arguments and for the result. -/
def fields (lib : Library) (c : Call) : Option (List (List Char)) :=
  (c.checked lib).bind fun checked =>
    Printf.fields (directives c.format.toList) (c.varArgs lib checked)

end Call

section Lines

variable {lib : Library} {c : Call}

/-- The line has the fields in the places of the format. -/
theorem line_eq_fill : c.line lib = (c.fields lib).map (fill (directives c.format.toList)) := by
  rw [Call.line, Call.fields]
  cases c.checked lib with
  | none => rfl
  | some checked => exact printf_eq_fill _ _

/-- The conversions of every format are for the arguments that are passed. -/
theorem fields_eq (checked : List Char) :
    Printf.fields (directives c.format.toList) (c.varArgs lib checked) =
      some (List.zipWith shown c.conversions (c.varArgs lib checked)) := by
  cases c <;> rw [Call.format] <;> rfl

theorem checked_isSome (loggable : Loggable lib.toLibc c) : (c.checked lib).isSome := by
  have safe {buf : Memory.Addr} (h : Helper.checkbuf buf ∈ (wrapper c).ending) :
      ((lib.checkedBuf [c.real] buf).map chars).isSome := by
    rw [Option.isSome_map, Library.checkedBuf, Option.isSome_map]
    exact loggable.2.2 _ h
  cases c with
  | write fd buf count => exact safe List.mem_cons_self
  | read fd buf count => exact safe (List.mem_cons_of_mem _ List.mem_cons_self)
  | fread buf size nmemb stream => exact safe List.mem_cons_self
  | fwrite buf size nitems stream => exact safe List.mem_cons_self
  | _ => rfl

end Lines

end UnixProgramming.Logger
