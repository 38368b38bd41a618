import UnixProgramming.Foundation.Stateful
import UnixProgramming.Libmini.Syscall

/-!
# `perror`

`perror` keeps a copy of `errno`, writes the prefix, and then looks at `errno` again, where
the writes have left their own error or 0. The copy only chooses the message.
-/

namespace UnixProgramming.Libmini

open Stateful

section Model

/-- `errmsg`, by error number. -/
def errmsg : List String :=
  ["Success",
    "Operation not permitted",
    "No such file or directory",
    "No such process",
    "Interrupted system call",
    "I/O error",
    "No such device or address",
    "Argument list too long",
    "Exec format error",
    "Bad file number",
    "No child processes",
    "Try again",
    "Out of memory",
    "Permission denied",
    "Bad address",
    "Block device required",
    "Device or resource busy",
    "File exists",
    "Cross-device link",
    "No such device",
    "Not a directory",
    "Is a directory",
    "Invalid argument",
    "File table overflow",
    "Too many open files",
    "Not a typewriter",
    "Text file busy",
    "File too large",
    "No space left on device",
    "Illegal seek",
    "Read-only file system",
    "Too many links",
    "Broken pipe",
    "Math argument out of domain of func",
    "Math result not representable"]

/-- `errno`, and the texts written to descriptor 2 so far. -/
structure Writing where
  errno : Word
  written : List String
  deriving DecidableEq

/-- `errmsg` is indexed outside its entries. -/
inductive Fault where
  | outOfBounds
  deriving DecidableEq

/-- The number lies between `PERRMSG_MIN` and `PERRMSG_MAX`. -/
def InTable (errno : Word) : Prop := ¬ (errno.toInt < 0 ∨ errno.toInt > 34)

instance (errno : Word) : Decidable (InTable errno) := inferInstanceAs (Decidable (¬ _))

/-- What the kernel returns for each of the writes in turn. -/
abbrev Results := Nat → Word

variable (results : Results)

/-- `write(2, text, strlen(text))`. The macro sets `errno` whatever the result is; where the
text and its length are in memory makes no difference to it. -/
def writeText (text : String) : EStateM Fault Writing Unit :=
  modify fun s => {
    errno := ((Wrapper.write 2 0 0).run (results s.written.length)).errno
    written := s.written ++ [text] }

/-- The rest of `perror` behind the prefix. -/
def writeMessage (backup : Word) : EStateM Fault Writing Unit := do
  let errno := (← get).errno
  if errno.toInt < 0 ∨ errno.toInt > 34 then
    writeText results "Unknown"
  else
    match errmsg[backup.toNat]? with
    | none => throw .outOfBounds
    | some msg => writeText results msg
  writeText results "\n"

def perror (pre : Option String) : EStateM Fault Writing Unit := do
  let backup := (← get).errno
  match pre with
  | none => pure ()
  | some pre => do
    writeText results pre
    writeText results ": "
  writeMessage results backup

end Model

section Message

/-- The message for an error number. -/
def message (errno : Word) : String :=
  if InTable errno then errmsg.getD errno.toNat "Unknown" else "Unknown"

def prefixed : Option String → List String
  | none => []
  | some pre => [pre, ": "]

/-- `perror` comes back and has written the prefix and the message for `errno`. -/
def Reports (results : Results) (errno : Word) (pre : Option String) : Prop :=
  ∃ s, perror results pre ⟨errno, []⟩ = .ok () s ∧
    s.written = prefixed pre ++ [message errno, "\n"]

/-- `errno` after a write. -/
def afterWrite (ret : Word) : Word := ((Wrapper.write 2 0 0).run ret).errno

/-- `errno` where it is looked at: as it was, or as the second write leaves it. -/
def tested (results : Results) (errno : Word) : Option String → Word
  | none => errno
  | some _ => afterWrite (results 1)

/-- The message that is written, if the table is not indexed outside its entries. -/
def chosen (results : Results) (errno : Word) (pre : Option String) : Option String :=
  if InTable (tested results errno pre) then errmsg[errno.toNat]? else some "Unknown"

variable {results : Results} {errno : Word} {pre : Option String}

theorem InTable.lt (h : InTable errno) : errno.toNat < errmsg.length := by
  have bound := errno.isLt
  rw [InTable, BitVec.toInt_eq_toNat_cond] at h
  change errno.toNat < 35
  split at h <;> omega

theorem inTable_of_lt (h : errno.toNat < errmsg.length) : InTable errno := by
  change errno.toNat < 35 at h
  rw [InTable, BitVec.toInt_eq_toNat_cond]
  split <;> omega

theorem errmsg_eq (h : InTable errno) : errmsg[errno.toNat]? = some (message errno) := by
  rw [message, if_pos h, List.getD_eq_getElem?_getD, List.getElem?_eq_getElem h.lt]
  rfl

theorem errmsg_eq_none (h : ¬ InTable errno) : errmsg[errno.toNat]? = none :=
  List.getElem?_eq_none (Nat.le_of_not_lt fun inside => h (inTable_of_lt inside))

/-- No error number has the message `Unknown`. -/
theorem message_ne_unknown (h : InTable errno) : message errno ≠ "Unknown" := by
  have listed : message errno ∈ errmsg := List.mem_of_getElem? (errmsg_eq h)
  have all : ∀ msg ∈ errmsg, msg ≠ "Unknown" := by decide
  exact all _ listed

theorem writeText_apply (text : String) (s : Writing) :
    writeText results text s =
      .ok () ⟨afterWrite (results s.written.length), s.written ++ [text]⟩ := rfl

theorem writeMessage_apply (backup : Word) (s : Writing) :
    writeMessage results backup s =
      (if InTable s.errno then errmsg[backup.toNat]? else some "Unknown").elim
        (.error .outOfBounds s)
        fun msg => .ok () ⟨afterWrite (results (s.written.length + 1)), s.written ++ [msg, "\n"]⟩ := by
  simp only [writeMessage, bind_apply, get_apply, InTable]
  by_cases out : s.errno.toInt < 0 ∨ s.errno.toInt > 34
  · simp [out, writeText_apply]
  · cases errmsg[backup.toNat]? <;> simp [out, writeText_apply]

theorem perror_run : perror results pre ⟨errno, []⟩ =
    writeMessage results errno ⟨tested results errno pre, prefixed pre⟩ := by
  rw [perror, bind_apply, get_apply]
  cases pre with
  | none => rw [tested, prefixed]
  | some pre =>
    dsimp only
    rw [bind_apply, writeText_apply]
    dsimp only
    rw [bind_apply, writeText_apply, tested, prefixed]
    rfl

theorem perror_apply : perror results pre ⟨errno, []⟩ =
    (chosen results errno pre).elim (.error .outOfBounds ⟨tested results errno pre, prefixed pre⟩)
      fun msg => .ok () ⟨afterWrite (results ((prefixed pre).length + 1)),
        prefixed pre ++ [msg, "\n"]⟩ := by
  rw [perror_run, writeMessage_apply, chosen]

theorem reports_iff_chosen : Reports results errno pre ↔ chosen results errno pre = some (message errno) := by
  rw [Reports, perror_apply]
  cases chosen results errno pre with
  | none => simp
  | some msg =>
    constructor
    · rintro ⟨s, ran, written⟩
      cases ran
      simpa using written
    · rintro same
      exact ⟨_, rfl, by simp [Option.some.inj same]⟩

/-- `perror` reports `errno` if and only if there is no prefix, or the write in front of the
message leaves an `errno` in the table exactly if the one to report is in it. -/
theorem reports_iff (results : Results) (errno : Word) (pre : Option String) :
    Reports results errno pre ↔
      pre = none ∨ (InTable (afterWrite (results 1)) ↔ InTable errno) := by
  have same : chosen results errno pre = some (message errno) ↔
      (InTable (tested results errno pre) ↔ InTable errno) := by
    unfold chosen
    by_cases looked : InTable (tested results errno pre) <;> by_cases given : InTable errno
    · rw [if_pos looked, errmsg_eq given]
      exact iff_of_true rfl (iff_of_true looked given)
    · rw [if_pos looked, errmsg_eq_none given]
      exact iff_of_false nofun fun both => given (both.mp looked)
    · rw [if_neg looked, Option.some.injEq]
      exact iff_of_false (message_ne_unknown given).symm fun both => looked (both.mpr given)
    · rw [if_neg looked, message, if_neg given]
      exact iff_of_true rfl (iff_of_false looked given)
  rw [reports_iff_chosen, same]
  cases pre with
  | none => exact iff_of_true Iff.rfl (.inl rfl)
  | some pre => exact (or_iff_right (Option.some_ne_none pre)).symm

/-- The call before has failed with `ENAMETOOLONG`, and the writes succeed. -/
theorem perror_indexes_outside :
    perror (fun _ => 1) (some "open") ⟨36, []⟩ = .error .outOfBounds ⟨0, ["open", ": "]⟩ ∧
      ¬ Reports (fun _ => 1) 36 (some "open") := by
  have fault : perror (fun _ => 1) (some "open") ⟨36, []⟩ = .error .outOfBounds ⟨0, ["open", ": "]⟩ := rfl
  refine ⟨fault, ?_⟩
  rintro ⟨s, ran, -⟩
  rw [fault] at ran
  cases ran

end Message

end UnixProgramming.Libmini
