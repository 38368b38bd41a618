import Mathlib.Data.List.Infix
import UnixProgramming.Foundation.Text
import UnixProgramming.Lsof.Table

/-!
# The scan

`lsof` collects what `/proc` shows of each process while the processes go on: every call
can fail whatever the one before it found. A collector takes a null pointer, the result
-1 of `readlink` or a `stat` structure that nobody filled in at face value; here these
are faults.
-/

namespace UnixProgramming.Lsof

open Text

inductive Fault where
  | nullPasswd
  | nullDir
  | negativeIndex
  | unfilled
  deriving DecidableEq

/-- The call that a `stat` structure was filled in by: the path, and the position of the
directory entry. -/
abbrev StatCall := String × Nat

structure Stat where
  mode : BitVec 32
  ino : Nat

/-- A `stat` structure with contents, and where it has them from. -/
structure Filled where
  stat : Stat
  call : StatCall

/-- A row with the file that it shows, the call made for its TYPE and NODE, and the call
that they come from. -/
structure Row where
  desc : FileDescriptor
  file : String
  asked : StatCall
  filled : Option StatCall

section Outcomes

/-- The calls on `cwd`, `root` or `exe`. -/
structure Link where
  access : Bool
  readlink : Option String
  stat : Option Stat

/-- An entry of the descriptor directory. -/
structure FdEntry where
  name : String
  stat : Option Stat
  readlink : Option String
  fdinfo : Option (List String)

/-- What the calls made for one process come back with. Files are lists of lines. -/
structure Outcome where
  comm : Option (List String)
  status : Option (List String)
  getpwuid : Int → Option String
  cwd : Link
  root : Link
  exe : Link
  mapsAccess : Bool
  maps : Option (List String)
  /-- the `stat` of `maps` when the word turns up first -/
  mapsStat : String → Option Stat
  fdAccess : Bool
  opendir : Option (List FdEntry)

end Outcomes

section Collectors

def isNumber (str : String) : Bool := str ≠ "" && str.toList.all isdigit

def getComm (o : Outcome) : String := ((o.comm.getD []).head?).getD ""

/-- The word after the first one of the last line with the word `Uid:` in it. -/
def getUid (o : Outcome) : String :=
  (o.status.getD []).foldl (fun result str =>
    if "Uid:" ∈ words str then (words str).getD 1 "" else result) ""

def getUsername (o : Outcome) (uid : String) : Except Fault String :=
  match o.getpwuid (atoi uid) with
  | some name => .ok name
  | none => .error .nullPasswd

def S_IFMT : BitVec 32 := 0o170000

def getType (sb : Stat) : String :=
  if sb.mode &&& S_IFMT = 0o060000 then "Blok"
  else if sb.mode &&& S_IFMT = 0o020000 then "CHR"
  else if sb.mode &&& S_IFMT = 0o040000 then "DIR"
  else if sb.mode &&& S_IFMT = 0o010000 then "FIFO"
  else if sb.mode &&& S_IFMT = 0o120000 then "LINK"
  else if sb.mode &&& S_IFMT = 0o100000 then "REG"
  else if sb.mode &&& S_IFMT = 0o140000 then "SOCK"
  else "unknow"

/-- `buf[name_size] = '\0'` with what `readlink` returned. -/
def terminated (readlink : Option String) : Except Fault String :=
  match readlink with
  | some name => .ok name
  | none => .error .negativeIndex

/-- Reading a `stat` structure. -/
def filledIn (sb : Option Filled) : Except Fault Filled :=
  match sb with
  | some sb => .ok sb
  | none => .error .unfilled

/-- `get_cwd`, `get_root` and `get_exe`. -/
def getLink (fd pid : String) (link : Link) : Except Fault Row := do
  let path := "/proc/" ++ pid ++ "/" ++ fd
  if link.access then
    let name ← terminated link.readlink
    let sb ← filledIn (link.stat.map fun sb => ⟨sb, path, 0⟩)
    return ⟨⟨fd, getType sb.stat, toString sb.stat.ino, name⟩, path, (path, 0), some sb.call⟩
  else
    return ⟨⟨fd, "unknown", "\t", path ++ " (readlink: Permission denied)"⟩, path, (path, 0), none⟩

def getCwd (pid : String) (o : Outcome) : Except Fault Row := getLink "cwd" pid o.cwd

def getRoot (pid : String) (o : Outcome) : Except Fault Row := getLink "root" pid o.root

def getExe (pid : String) (o : Outcome) : Except Fault Row := getLink "exe" pid o.exe

end Collectors

section Mem

variable (pid : String) (o : Outcome)

def memPath : String := "/proc/" ++ pid ++ "/maps"

def memRow (word : String) (sb : Filled) : Row :=
  ⟨⟨"mem", getType sb.stat, toString sb.stat.ino, word⟩, word, (memPath pid, 0), some sb.call⟩

/-- The row of a word. The structure is filled in for `maps` itself. -/
def pushMem (word : String) (result : List Row) : Except Fault (List Row) := do
  let sb ← filledIn ((o.mapsStat word).map fun sb => ⟨sb, memPath pid, 0⟩)
  return result ++ [memRow pid word sb]

/-- The inner loop, over a vector that it appends to. -/
def searchMem (word : String) (i : Nat) (result : List Row) : Except Fault (List Row) :=
  if h : i < result.length then
    if result[i].desc.name = word then
      .ok result
    else if i = result.length - 1 then do
      let sb ← filledIn ((o.mapsStat word).map fun sb => ⟨sb, memPath pid, 0⟩)
      searchMem word (i + 1) (result ++ [memRow pid word sb])
    else
      searchMem word (i + 1) result
  else
    .ok result
-- an appended row bears the word, so the loop ends at it
termination_by 2 * (result.length - i) + if result.getLast?.map (·.desc.name) = some word then 0 else 1
decreasing_by
  · next other last =>
    have final : result.getLast?.map (·.desc.name) ≠ some word := by
      rw [List.getLast?_eq_getElem?, ← last, List.getElem?_eq_getElem h]
      simpa using other
    rw [if_neg final]
    simp [memRow]
  · omega

def addWord (result : List Row) (word : String) : Except Fault (List Row) := do
  let result ← if result.length = 0 then pushMem pid o word result else pure result
  searchMem pid o word 0 result

/-- The words of `maps` with a slash. -/
def mappedWords : List String :=
  ((o.maps.getD []).flatMap words).filter fun word => '/' ∈ word.toList

def getMem : Except Fault (List Row) :=
  if o.mapsAccess then (mappedWords o).foldlM (addWord pid o) [] else .ok []

end Mem

section Fd

/-- The letters after the first word with `flags:` in it. -/
def flagLetters (str : String) : String :=
  (((words str).dropWhile fun word => ¬ "flags:".toList <:+: word.toList).drop 1).foldl
    (fun result word => result ++ match word.toList.getLast? with
      | some '0' => "r"
      | some '1' => "w"
      | some '2' => "u"
      | _ => "N") ""

def getFdType (pos : String) (fdinfo : Option (List String)) : String :=
  (fdinfo.getD []).foldl (fun result str => result ++ flagLetters str) pos

variable (pid : String)

/-- The loop over the directory, in which all entries share one `stat` structure. -/
def readFds : List FdEntry → Nat → Option Filled → Except Fault (List Row)
  | [], _, _ => .ok []
  | e :: es, k, sb =>
    if isNumber e.name then do
      let path := "/proc/" ++ pid ++ "/fd/" ++ e.name
      let sb := (e.stat.map fun sb => ⟨sb, path, k⟩).or sb
      let name ← terminated e.readlink
      let seen ← filledIn sb
      let desc := ⟨getFdType e.name e.fdinfo, getType seen.stat, toString seen.stat.ino, name⟩
      let rest ← readFds es (k + 1) sb
      return ⟨desc, path, (path, k), some seen.call⟩ :: rest
    else
      readFds es (k + 1) sb

def getFd (o : Outcome) : Except Fault (List Row) := do
  let path := "/proc/" ++ pid ++ "/fd"
  if o.fdAccess then
    match o.opendir with
    | some entries => readFds pid entries 0 none
    | none => .error .nullDir
  else
    let sb ← filledIn none
    return [⟨⟨"NOFD", getType sb.stat, "\t", path ++ "(opendir: Permission denied)"⟩, path, (path, 0),
      some sb.call⟩]

end Fd

section Main

/-- One turn of the main loop. -/
def collect (pid : String) (o : Outcome) : Except Fault (PidInfo × List Row) := do
  let comm := getComm o
  let uid := getUid o
  let username ← getUsername o uid
  let cwd ← getCwd pid o
  let root ← getRoot pid o
  let exe ← getExe pid o
  let mem ← getMem pid o
  let fd ← getFd pid o
  let rows := [cwd, root, exe] ++ mem ++ fd
  return (⟨pid, uid, username, comm, rows.map Row.desc⟩, rows)

def scan (processes : List (String × Outcome)) : Except Fault (List (PidInfo × List Row)) :=
  processes.mapM fun process => collect process.1 process.2

end Main

end UnixProgramming.Lsof
