import UnixProgramming.Sdb.Command

/-!
# The reading loop of `main`

`fgets` hands out the input in pieces, `splitStr2Vec` cuts a piece into words, and the
first word selects the command. The operands are converted before the command starts.
-/

namespace UnixProgramming.Sdb

open Memory Text Transition

section Split

/-- `s.find_first_of(splitSep, pos)`. -/
def findFirstOf (splitSep s : List Char) (pos : Nat) : Option Nat :=
  ((s.drop pos).findIdx? (· ∈ splitSep)).map (pos + ·)

theorem findFirstOf_bounds {splitSep s : List Char} {pos next : Nat}
    (found : findFirstOf splitSep s pos = some next) : pos ≤ next ∧ next < s.length := by
  obtain ⟨i, at_i, rfl⟩ := Option.map_eq_some_iff.mp found
  obtain ⟨bound, -⟩ := List.findIdx?_eq_some_iff_getElem.mp at_i
  rw [List.length_drop] at bound
  omega

/-- The loop of `splitStr2Vec`, which keeps a substring unless it is empty. After the last
separator `substr` takes all that is left. -/
def splitFrom (splitSep s : List Char) (current : Nat) : List (List Char) :=
  match _found : findFirstOf splitSep s current with
  | none => unlessEmpty (s.drop current)
  | some next =>
    (if next ≠ current then unlessEmpty ((s.drop current).take (next - current)) else []) ++
      splitFrom splitSep s (next + 1)
termination_by s.length - current
decreasing_by
  have bounds := findFirstOf_bounds _found
  omega

def splitStr2Vec (s splitSep : List Char) : List (List Char) := splitFrom splitSep s 0

/-- What `find_first_of` says about the text from `pos` on. -/
theorem findFirstOf_none {splitSep s : List Char} {pos : Nat}
    (missing : findFirstOf splitSep s pos = none) : ∀ c ∈ s.drop pos, decide (c ∈ splitSep) = false := by
  rw [findFirstOf, Option.map_eq_none_iff, List.findIdx?_eq_none_iff] at missing
  exact missing

theorem findFirstOf_some {splitSep s : List Char} {pos next : Nat}
    (found : findFirstOf splitSep s pos = some next) : ∃ c, c ∈ splitSep ∧
      s.drop pos = (s.drop pos).take (next - pos) ++ c :: s.drop (next + 1) ∧
      ∀ c ∈ (s.drop pos).take (next - pos), decide (c ∈ splitSep) = false := by
  obtain ⟨i, at_i, rfl⟩ := Option.map_eq_some_iff.mp found
  obtain ⟨bound, hit, before⟩ := List.findIdx?_eq_some_iff_getElem.mp at_i
  rw [Nat.add_sub_cancel_left]
  refine ⟨(s.drop pos)[i], by simpa using hit, ?_, fun c inside => ?_⟩
  · have rest : s.drop (pos + i + 1) = (s.drop pos).drop (i + 1) := by
      rw [List.drop_drop, Nat.add_assoc]
    rw [rest, ← List.drop_eq_getElem_cons bound, List.take_append_drop]
  · obtain ⟨k, short, rfl⟩ := List.getElem_of_mem inside
    rw [List.length_take] at short
    rw [List.getElem_take]
    simpa using before k (by omega)

theorem splitFrom_eq (splitSep s : List Char) (current : Nat) :
    splitFrom splitSep s current = runs (· ∈ splitSep) (s.drop current) := by
  induction current using splitFrom.induct splitSep s with
  | case1 current missing =>
    rw [splitFrom]
    split
    · exact (runs_of_inner (findFirstOf_none missing)).symm
    · next found => cases missing.symm.trans found
  | case2 current next found ih =>
    obtain ⟨c, sep, parts, inner⟩ := findFirstOf_some found
    rw [splitFrom]
    split
    · next missing => cases missing.symm.trans found
    · next next' found' =>
      obtain rfl := Option.some.inj (found.symm.trans found')
      rw [parts, runs_append_sep inner (by simpa using sep), ih, ← parts]
      by_cases here : next = current
      · simp [here, unlessEmpty]
      · rw [if_pos here]

/-- `splitStr2Vec` returns the maximal nonempty runs of characters that are no separators. -/
theorem splitStr2Vec_eq (s splitSep : List Char) :
    splitStr2Vec s splitSep = runs (· ∈ splitSep) s := splitFrom_eq splitSep s 0

end Split

section Words

/-- The comparisons of the first word, in the order of the source. -/
inductive Keyword where
  | break | cont | delete | disasm | dump | exit | get | getregs | help | list | load | run | vmmap
  | set | si | start
  deriving DecidableEq

def keyword? (cmd : String) : Option Keyword :=
  if cmd = "break" ∨ cmd = "b" then some .break
  else if cmd = "cont" ∨ cmd = "c" then some .cont
  else if cmd = "delete" then some .delete
  else if cmd = "disasm" ∨ cmd = "d" then some .disasm
  else if cmd = "dump" ∨ cmd = "x" then some .dump
  else if cmd = "exit" ∨ cmd = "q" then some .exit
  else if cmd = "get" ∨ cmd = "g" then some .get
  else if cmd = "getregs" then some .getregs
  else if cmd = "help" ∨ cmd = "h" then some .help
  else if cmd = "list" ∨ cmd = "l" then some .list
  else if cmd = "load" then some .load
  else if cmd = "run" ∨ cmd = "r" then some .run
  else if cmd = "vmmap" ∨ cmd = "m" then some .vmmap
  else if cmd = "set" then some .set
  else if cmd = "si" then some .si
  else if cmd = "start" then some .start
  else none

/-- What `main` makes of the words of a line. -/
inductive Parsed where
  | command (cmd : Command)
  | message (text : String)
  | down (why : Halt)

/-- The exceptions of the conversions are not caught. -/
def Parsed.number {α : Type} (make : α → Command) : Except Malformed α → Parsed
  | .ok value => .command (make value)
  | .error _ => .down .abort

/-- `break`, `disasm` and `dump` look whether there is an operand. -/
def Parsed.addr (make : Addr → Command) : List (List Char) → Parsed
  | [] => .message "** no addr given.\n"
  | arg :: _ => .number make (stoull 16 arg)

/-- `delete`, `get` and `load` use `input[1]` whether there is one or not. -/
def Parsed.operand (make : List Char → Parsed) : List (List Char) → Parsed
  | [] => .down .outOfBounds
  | arg :: _ => make arg

def parse (cmd : List Char) (args : List (List Char)) : Parsed :=
  match keyword? (String.ofList cmd) with
  | some .break => .addr .break args
  | some .cont => .command .cont
  | some .delete => .operand (fun arg => .number .delete (stoi 10 arg)) args
  | some .disasm => .addr .disasm args
  | some .dump => .addr .dump args
  | some .exit => .command .exit
  | some .get => .operand (fun arg => .command (.get (String.ofList arg))) args
  | some .getregs => .command .getregs
  | some .help => .command .help
  | some .list => .command .list
  | some .load => .operand (fun arg => .command (.load (String.ofList arg))) args
  | some .run => .command .run
  | some .vmmap => .command .vmmap
  | some .set =>
    match args with
    | reg :: val :: _ =>
      .number (fun v => .set (String.ofList reg) (BitVec.ofInt 64 v)) (stol 16 val)
    | _ => .message "** input error.\n"
  | some .si => .command .si
  | some .start => .command .start
  | none => .command .unknown

end Words

section Loop

variable {κ : Type}

/-- The line without its newline. -/
def chomp (text : List Char) : List Char :=
  if text.getLast? = some newline then text.dropLast else text

/-- The words of what one `fgets` has read. -/
def wordsOf (piece : List Char) : List (List Char) := splitStr2Vec (chomp (upToNul piece)) [' ']

def dispatch (host : Host κ) (n : Nat) (cmd : List Char) (args : List (List Char)) : Cmd κ Unit :=
  match parse cmd args with
  | .command cmd => exec host n cmd
  | .message text => stderr text
  | .down why => throw why

/-- A script is read without prompts. -/
def prompt (ifprint : Bool) : Cmd κ Unit := unless ifprint do stderr "sdb> "

/-- The body of the loop, for what one `fgets` has read. Where this starts with a NUL,
`line[strlen(line)-1]` is in front of the buffer. -/
def readPiece (host : Host κ) (ifprint : Bool) (n : Nat) (piece : List Char) : Cmd κ Unit :=
  if (upToNul piece).isEmpty then
    throw .outOfBounds
  else
    match wordsOf piece with
    | [] => return
    | cmd :: args => do
      dispatch host n cmd args
      prompt ifprint

/-- What comes before the loop: the program of the command line is loaded. -/
def prepare (host : Host κ) (ifprint : Bool) (argProg : Option String) : Cmd κ Unit := do
  match argProg with
  | none => pure ()
  | some path => load host path
  prompt ifprint

def PieceStep (host : Host κ) (ifprint : Bool) (piece : List Char) (w w' : World κ) : Prop :=
  ∃ n, readPiece host ifprint n piece w = .ok () w'

/-- The worlds in which the loop can be when it calls `fgets`. -/
def InLoop (host : Host κ) (ifprint : Bool) (w : World κ) : Prop :=
  ∃ argProg w₀ past, prepare host ifprint argProg (World.init host) = .ok () w₀ ∧
    Run (PieceStep host ifprint) past w₀ w

end Loop

end UnixProgramming.Sdb
