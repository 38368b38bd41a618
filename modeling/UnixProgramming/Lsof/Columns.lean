import UnixProgramming.Lsof.Fdinfo
import UnixProgramming.Lsof.Main

/-!
# Reading the output

The columns stand between tabs. The node of a file without access is itself a tab, so such
a row has a column more. Nevertheless the output can be read back, messages and all, if no
name in it contains a tab or a newline: what the collectors add never does.
-/

namespace UnixProgramming.Lsof

open Getopt Stateful Text

section Reader

/-- What a row shows. -/
structure Shown where
  comm : String
  pid : String
  username : String
  desc : FileDescriptor
  deriving DecidableEq

def shownRow (row : PidInfo × FileDescriptor) : Shown :=
  ⟨row.1.comm, row.1.pid, row.1.username, row.2⟩

def readColumns : List String → Option Shown
  | [comm, pid, username, fd, type, node, name] => some ⟨comm, pid, username, ⟨fd, type, node, name⟩⟩
  | [comm, pid, username, fd, type, "", "", name] => some ⟨comm, pid, username, ⟨fd, type, "\t", name⟩⟩
  | _ => none

def readLine (line : List Char) : Option Shown := readColumns ((line.splitOn tab).map String.ofList)

/-- The rows in a text, behind the heading. -/
def readRows (text : List Char) : List Shown := (getlines text).tail.filterMap readLine

/-- Without tabs and newlines. -/
def Plain (s : String) : Prop := tab ∉ s.toList ∧ newline ∉ s.toList

theorem Plain.append {s s' : String} (first : Plain s) (second : Plain s') : Plain (s ++ s') := by
  rw [Plain, String.toList_append, List.mem_append, List.mem_append, not_or, not_or]
  exact ⟨⟨first.1, second.1⟩, first.2, second.2⟩

/-- The node is a number, or the tab that stands for none. -/
def NodeColumn (node : String) : Prop := node = "\t" ∨ Plain node ∧ node ≠ ""

end Reader

section Collectors

variable {pid : String} {o : Outcome} {row : Row}

/-- The columns that a collector makes up. -/
structure Row.Columned (row : Row) : Prop where
  fd : Plain row.desc.fd
  type : Plain row.desc.type
  node : NodeColumn row.desc.node

theorem plain_toString (n : Nat) : Plain (toString n) := by
  have digits {c : Char} (inside : c ∈ (toString n).toList) : isspace c = false := by
    rw [Nat.toString_eq_repr, Nat.toList_repr] at inside
    exact not_isspace_of_toDigits (by decide) (by decide) inside
  exact ⟨fun inside => absurd (digits inside) (by decide), fun inside => absurd (digits inside) (by decide)⟩

theorem Row.Typed.plain (typed : row.Typed) : Plain row.desc.type := by
  have all : ∀ pair ∈ types, Plain pair.1 := by
    unfold Plain
    decide
  rcases typed with ⟨seen, same⟩
  rw [same]
  cases seen with
  | none =>
    unfold Plain typeOf
    decide
  | some mode => exact all _ (getType_mem_types mode)

theorem nodeColumn_toString (n : Nat) : NodeColumn (toString n) := by
  refine .inr ⟨plain_toString n, fun empty => ?_⟩
  have digits : (Nat.toDigits 10 n) = [] := by
    rw [← Nat.toList_repr, ← Nat.toString_eq_repr, empty]
    rfl
  exact Nat.toDigits_ne_nil digits

/-- The letters for the access mode are among these. -/
theorem mem_flagLetters {str : String} {c : Char} (inside : c ∈ (flagLetters str).toList) :
    c ∈ ['r', 'w', 'u', 'N'] := by
  have general {letter : String → String} (letters : ∀ word, ∀ c ∈ (letter word).toList,
      c ∈ ['r', 'w', 'u', 'N']) (ws : List String) (start : String)
      (before : ∀ c ∈ start.toList, c ∈ ['r', 'w', 'u', 'N']) :
      ∀ c ∈ (ws.foldl (fun result word => result ++ letter word) start).toList,
        c ∈ ['r', 'w', 'u', 'N'] := by
    induction ws generalizing start with
    | nil => exact before
    | cons word ws ih =>
      refine ih (start ++ letter word) fun c inside => ?_
      rw [String.toList_append, List.mem_append] at inside
      exact inside.elim (before c) (letters word c)
  refine general (fun word c inside => ?_) _ "" (by simp) c inside
  split at inside <;> revert inside <;> simp <;> rintro rfl <;> decide

theorem plain_getFdType {pos : String} (plain : Plain pos) (fdinfo : Option (List String)) :
    Plain (getFdType pos fdinfo) := by
  have lettersPlain {c : Char} (blank : c ∉ ['r', 'w', 'u', 'N']) (clear : c ∉ pos.toList) :
      c ∉ (getFdType pos fdinfo).toList := by
    cases fdinfo with
    | none => exact clear
    | some lines =>
      rw [toList_getFdType, List.mem_append, List.mem_flatMap]
      rintro (inside | ⟨str, -, inside⟩)
      · exact clear inside
      · exact blank (mem_flagLetters inside)
  exact ⟨lettersPlain (by decide) plain.1, lettersPlain (by decide) plain.2⟩

theorem plain_of_isNumber {str : String} (number : isNumber str) : Plain str := by
  rw [isNumber, Bool.and_eq_true, List.all_eq_true] at number
  exact ⟨fun inside => absurd (number.2 _ inside) (by decide),
    fun inside => absurd (number.2 _ inside) (by decide)⟩

theorem getLink_columned {fd : String} {link : Link} (plain : Plain fd)
    (run : getLink fd pid link = .ok row) : row.Columned := by
  have type := (getLink_typed run).plain
  unfold getLink at run
  split at run
  · rcases except_bind_ok.mp run with ⟨name, -, rest⟩
    rcases except_bind_ok.mp rest with ⟨sb, -, collected⟩
    cases collected
    exact ⟨plain, type, nodeColumn_toString _⟩
  · cases run
    exact ⟨plain, type, .inl rfl⟩

theorem getMem_columned {rows : List Row} (run : getMem pid o = .ok rows) :
    ∀ row ∈ rows, row.Columned := by
  intro row listed
  have type := (getMem_typed run row listed).plain
  rcases (getMem_distinct run).2 row listed with ⟨word, sb, -, rfl⟩
  refine ⟨?_, type, nodeColumn_toString _⟩
  change Plain "mem"
  unfold Plain
  decide

theorem readFds_columned {es : List FdEntry} {k : Nat} {sb : Option Filled} {rows : List Row}
    (run : readFds pid es k sb = .ok rows) : ∀ row ∈ rows, row.Columned := by
  have typed := readFds_typed run
  induction es generalizing k sb rows with
  | nil =>
    cases run
    simp
  | cons e es ih =>
    by_cases number : isNumber e.name
    · rcases (readFds_cons number).mp run with ⟨name, seen, rest, -, -, later, rfl⟩
      rcases List.forall_mem_cons.mp typed with ⟨here, typed⟩
      exact List.forall_mem_cons.mpr ⟨⟨plain_getFdType (plain_of_isNumber number) _, here.plain,
        nodeColumn_toString _⟩, ih later typed⟩
    · rw [readFds, if_neg number] at run
      exact ih run typed

theorem getFd_columned {rows : List Row} (run : getFd pid o = .ok rows) : ∀ row ∈ rows, row.Columned := by
  unfold getFd at run
  split at run
  · split at run
    · exact readFds_columned run
    · cases run
  · cases run

theorem collect_columned {r : PidInfo × List Row} (run : collect pid o = .ok r) :
    r.1.pid = pid ∧ r.1.fileDesc = r.2.map Row.desc ∧ ∀ row ∈ r.2, row.Columned := by
  simp only [collect, except_bind_ok] at run
  rcases run with ⟨-, -, cwd, hcwd, root, hroot, exe, hexe, mem, hmem, fd, hfd, ⟨⟩⟩
  have links : Plain "cwd" ∧ Plain "root" ∧ Plain "exe" := by
    unfold Plain
    decide
  refine ⟨rfl, rfl, ?_⟩
  simp only [List.forall_mem_append, List.forall_mem_cons]
  have nothing : ∀ row ∈ ([] : List Row), row.Columned := fun _ none => absurd none List.not_mem_nil
  exact ⟨⟨⟨getLink_columned links.1 hcwd, getLink_columned links.2.1 hroot,
    getLink_columned links.2.2 hexe, nothing⟩, getMem_columned hmem⟩, getFd_columned hfd⟩

theorem scan_columned {processes : List (String × Outcome)} {table : List (PidInfo × List Row)}
    (run : scan processes = .ok table) : ∀ r ∈ table, r.1.pid ∈ processes.map Prod.fst ∧
      r.1.fileDesc = r.2.map Row.desc ∧ ∀ row ∈ r.2, row.Columned := by
  have each := except_mapM_ok.mp ⟨table, run, fun _ _ => trivial⟩
  have good : ∀ x ∈ processes, ∃ r, collect x.1 x.2 = .ok r ∧ r.1.pid ∈ processes.map Prod.fst ∧
      r.1.fileDesc = r.2.map Row.desc ∧ ∀ row ∈ r.2, row.Columned := by
    intro x listed
    rcases each x listed with ⟨r, collected, -⟩
    rcases collect_columned collected with ⟨pid, columned⟩
    exact ⟨r, collected, pid ▸ List.mem_map_of_mem listed, columned⟩
  rcases except_mapM_ok.mpr good with ⟨table', run', columned⟩
  obtain rfl := Except.ok.inj (run.symm.trans run')
  exact columned

end Collectors

section Lines

/-- The string is one line, and that is read as this. -/
def ReadAs (str : String) (shown : Option Shown) : Prop :=
  ∃ body, newline ∉ body ∧ str.toList = body ++ [newline] ∧ readLine body = shown

theorem readAs_message {text str : String} (plain : Plain text) (ends : str = text ++ "\n") :
    ReadAs str none := by
  refine ⟨text.toList, plain.2, ?_, ?_⟩
  · rw [ends, String.toList_append]
    rfl
  · rw [readLine, List.splitOn_eq_singleton plain.1]
    rfl

theorem readAs_line {info : PidInfo} {desc : FileDescriptor}
    (columns : (Plain info.comm ∧ Plain info.pid ∧ Plain info.username) ∧
      Plain desc.fd ∧ Plain desc.type ∧ NodeColumn desc.node ∧ Plain desc.name) :
    ReadAs (line info desc) (some (shownRow (info, desc))) := by
  rcases columns with ⟨⟨comm, pid, username⟩, fd, type, node, name⟩
  have noNewline : newline ∉ desc.node.toList := by
    rcases node with same | ⟨plain, -⟩
    · rw [same]
      decide
    · exact plain.2
  have last : ((desc.node.toList ++ tab :: desc.name.toList).splitOn tab).map String.ofList =
      if desc.node = "\t" then ["", "", desc.name] else [desc.node, desc.name] := by
    rcases node with same | ⟨plain, -⟩
    · rw [if_pos same, same]
      change ((([] : List Char) ++ tab :: (([] : List Char) ++ tab :: desc.name.toList)).splitOn tab).map
        String.ofList = _
      rw [List.splitOn_append_cons_self_of_not_mem List.not_mem_nil,
        List.splitOn_append_cons_self_of_not_mem List.not_mem_nil, List.splitOn_eq_singleton name.1]
      simp
    · have other : desc.node ≠ "\t" := by
        intro same
        rw [same] at plain
        exact plain.1 (by decide)
      rw [if_neg other, List.splitOn_append_cons_self_of_not_mem plain.1, List.splitOn_eq_singleton name.1]
      simp
  refine ⟨info.comm.toList ++ tab :: (info.pid.toList ++ tab :: (info.username.toList ++ tab ::
    (desc.fd.toList ++ tab :: (desc.type.toList ++ tab :: (desc.node.toList ++ tab :: desc.name.toList))))),
    ?_, ?_, ?_⟩
  · have apart : newline ≠ tab := by decide
    simp [apart, comm.2, pid.2, username.2, fd.2, type.2, noNewline, name.2]
  · simp [line, tab, newline]
  · rw [readLine, List.splitOn_append_cons_self_of_not_mem comm.1,
      List.splitOn_append_cons_self_of_not_mem pid.1, List.splitOn_append_cons_self_of_not_mem username.1,
      List.splitOn_append_cons_self_of_not_mem fd.1, List.splitOn_append_cons_self_of_not_mem type.1]
    simp only [List.map_cons, last, String.ofList_toList]
    by_cases same : desc.node = "\t"
    · rw [if_pos same, readColumns, ← same]
      rfl
    · rw [if_neg same]
      rfl

/-- Lines are read one after the other. -/
theorem filterMap_readLine {strs : List String} {shown : List (Option Shown)}
    (all : List.Forall₂ ReadAs strs shown) :
    (getlines (strs.flatMap String.toList)).filterMap readLine = shown.filterMap id := by
  induction all with
  | nil => rfl
  | @cons str result strs shown first _ ih =>
    rcases first with ⟨body, inner, text, read⟩
    rw [List.flatMap_cons, text, List.append_assoc, List.singleton_append, getlines_append inner,
      List.filterMap_cons, List.filterMap_cons, read, ih]
    rfl

end Lines

section Output

variable {regex : Regex} {listing : List (String × Outcome)} {words : List Word} {out : List String}
  {table : List (PidInfo × List Row)}

/-- No name in the table contains a tab or a newline. -/
structure NamesPlain (listing : List (String × Outcome)) (table : List (PidInfo × List Row)) : Prop where
  pid : ∀ process ∈ scandir listing, Plain process.1
  comm : ∀ r ∈ table, Plain r.1.comm
  username : ∀ r ∈ table, Plain r.1.username
  name : ∀ r ∈ table, ∀ desc ∈ r.1.fileDesc, Plain desc.name

theorem readAs_messages {pid : String} (plain : Plain pid) (o : Outcome) :
    ∀ message ∈ messages pid o, ReadAs message none := by
  have start : Plain "/proc/" := by
    unfold Plain
    decide
  have about {tail ending : String} (rest : Plain tail) (ends : ending = tail ++ "\n") :
      ReadAs ("/proc/" ++ pid ++ ending) none := by
    refine readAs_message ((start.append plain).append rest) ?_
    rw [ends, String.append_assoc, String.append_assoc, String.append_assoc]
  have tails : Plain "/comm get_comm error!" ∧ Plain "/status get_uid error!" ∧
      Plain "/maps get_mem error" := by
    unfold Plain
    decide
  have one {condition : Bool} {text : String} (read : ReadAs text none) :
      ∀ message ∈ if condition then [text] else [], ReadAs message none := by
    cases condition with
    | false => simp
    | true => exact List.forall_mem_singleton.mpr read
  have mem : memPath pid ++ " get_mem error\n" = "/proc/" ++ pid ++ "/maps get_mem error\n" := by
    rw [memPath, String.append_assoc]
    rfl
  rw [messages, List.forall_mem_append, List.forall_mem_append, mem]
  exact ⟨⟨one (about tails.1 rfl), one (about tails.2.1 rfl)⟩, one (about tails.2.2 rfl)⟩

/-- What `lsof` prints can be read back, row by row, if the names are without tabs and
newlines. -/
theorem main_read_back (ran : main regex listing words = .exited out)
    (scanned : scan (scandir listing) = .ok table) (plain : NamesPlain listing table) :
    readRows (out.flatMap String.toList) = (kept regex words (table.map Prod.fst)).map shownRow := by
  rcases exited_iff.mp ran with ⟨table', scanned', -, rfl⟩
  obtain rfl := Except.ok.inj (scanned.symm.trans scanned')
  have silent {strs : List String} (read : ∀ str ∈ strs, ReadAs str none) :
      List.Forall₂ ReadAs strs (strs.map fun _ => none) :=
    List.forall₂_map_right_iff.mpr (List.forall₂_same.mpr read)
  have errors : ∀ str ∈ List.replicate (invalids words) "input error!\n", ReadAs str none := by
    intro str listed
    rw [List.eq_of_mem_replicate listed]
    have plain : Plain "input error!" := by
      unfold Plain
      decide
    exact readAs_message plain rfl
  have messages : ∀ str ∈ (scandir listing).flatMap fun process => messages process.1 process.2,
      ReadAs str none := by
    intro str listed
    rcases List.mem_flatMap.mp listed with ⟨process, member, listed⟩
    exact readAs_messages (plain.pid process member) process.2 str listed
  have lines : List.Forall₂ ReadAs
      ((kept regex words (table.map Prod.fst)).map fun row => line row.1 row.2)
      ((kept regex words (table.map Prod.fst)).map fun row => some (shownRow row)) := by
    refine List.forall₂_map_left_iff.mpr (List.forall₂_map_right_iff.mpr (List.forall₂_same.mpr ?_))
    rintro ⟨info, desc⟩ listed
    rcases List.mem_flatMap.mp (List.mem_filter.mp listed).1 with ⟨_, member, inside⟩
    rcases List.mem_map.mp member with ⟨r, known, rfl⟩
    rcases List.mem_map.mp inside with ⟨_, shows, same⟩
    cases same
    rcases scan_columned scanned r known with ⟨process, descs, columned⟩
    rcases List.mem_map.mp process with ⟨p, scheduled, pid⟩
    rcases List.mem_map.mp (descs ▸ shows) with ⟨row, collected, rfl⟩
    have columns := columned row collected
    exact readAs_line ⟨⟨plain.comm r known, pid ▸ plain.pid p scheduled, plain.username r known⟩,
      columns.fd, columns.type, columns.node, plain.name r known _ shows⟩
  have read := filterMap_readLine (List.rel_append (List.rel_append (silent messages) (silent errors)) lines)
  have heading : printPrefix.toList = "COMMAND\tPID\tUSER\tFD\tTYPE\tNODE\tNAME".toList ++ [newline] := rfl
  have inner : newline ∉ "COMMAND\tPID\tUSER\tFD\tTYPE\tNODE\tNAME".toList := by decide
  rw [readRows, List.append_assoc, List.cons_append, List.flatMap_cons, heading, List.append_assoc,
    List.singleton_append, getlines_append inner, List.tail_cons, ← List.append_assoc, read]
  simp

theorem main_read_back_idle :
    readRows ([printPrefix, "cat\t9\troot\texe\tDIR\t2\t/bin/cat\n"].flatMap String.toList) =
      [⟨"cat", "9", "root", ⟨"exe", "DIR", "2", "/bin/cat"⟩⟩] := by
  have order : scandir [("9", idle)] = [("9", idle)] := scandir_eq (.cons (by simp) .nil) (.refl _)
  have scanned : scan (scandir [("9", idle)]) = scan [("9", idle)] := congrArg scan order
  have ran : main plainRegex [("9", idle)] ["-fbin".toList] =
      .exited [printPrefix, "cat\t9\troot\texe\tDIR\t2\t/bin/cat\n"] := by
    refine exited_iff.mpr ⟨_, scanned.trans rfl, ⟨rfl, rfl, rfl⟩, ?_⟩
    rw [order]
    decide +kernel
  refine (main_read_back ran (scanned.trans rfl) ⟨?_, ?_, ?_, ?_⟩).trans (by decide +kernel)
  · rw [order, List.forall_mem_singleton]
    unfold Plain
    decide
  · unfold Plain
    decide +kernel
  · unfold Plain
    decide +kernel
  · unfold Plain
    decide +kernel

end Output

end UnixProgramming.Lsof
