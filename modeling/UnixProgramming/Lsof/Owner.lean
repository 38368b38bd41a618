import Mathlib.Data.List.Nodup
import UnixProgramming.Lsof.Race

/-!
# The owner of a process

`get_uid` looks for the word `Uid:` in every line of `/proc/pid/status` and keeps what the
last such line says, so that the name of the process, which comes first, cannot take the
place of the line of the kernel. If the file cannot be read there is no such line. The uid
is then the empty string, which `get_username` takes for 0.
-/

namespace UnixProgramming.Lsof

open Stateful Text

section Status

/-- `/proc/pid/status`: the name, the line with the four uids, and other lines, of which
those behind the uids do not have the word `Uid:`. -/
structure StatusFile where
  name : List Char
  before : List (List Char)
  real : Nat
  effective : Nat
  saved : Nat
  fs : Nat
  after : List (List Char)
  oneLine : newline ∉ name ∧ (∀ line ∈ before, newline ∉ line) ∧ ∀ line ∈ after, newline ∉ line
  silent : ∀ line ∈ after, "Uid:" ∉ words (String.ofList line)

/-- Numbers in a row, each behind a tab. -/
def tabbed (numbers : List Nat) : List Char := numbers.flatMap fun n => tab :: Nat.toDigits 10 n

namespace StatusFile

variable (f : StatusFile)

def uidLine : List Char := "Uid:".toList ++ tabbed [f.real, f.effective, f.saved, f.fs]

def lines : List (List Char) := ("Name:".toList ++ tab :: f.name) :: f.before ++ f.uidLine :: f.after

def text : List Char := f.lines.flatMap (· ++ [newline])

end StatusFile

theorem newline_not_mem_tabbed (numbers : List Nat) : newline ∉ tabbed numbers := by
  intro member
  rcases List.mem_flatMap.mp member with ⟨n, -, inside⟩
  rcases List.mem_cons.mp inside with here | digit
  · exact absurd here (by decide)
  · exact absurd (not_isspace_of_toDigits (by decide) (by decide) digit) (by decide)

theorem runs_append_tabbed {word : List Char} (nonempty : word ≠ [])
    (clear : ∀ c ∈ word, isspace c = false) (numbers : List Nat) :
    runs isspace (word ++ tabbed numbers) = word :: numbers.map (Nat.toDigits 10) := by
  induction numbers generalizing word with
  | nil =>
    have alone : word ++ tabbed [] = word := List.append_nil word
    rw [alone, runs_word nonempty clear]
    rfl
  | cons n rest ih =>
    have cut : tabbed (n :: rest) = tab :: (Nat.toDigits 10 n ++ tabbed rest) := rfl
    rw [cut, runs_word_append nonempty clear (by decide),
      ih Nat.toDigits_ne_nil fun c => not_isspace_of_toDigits (by decide) (by decide)]
    rfl

namespace StatusFile

variable (f : StatusFile)

theorem words_uidLine : words (String.ofList f.uidLine) =
    ["Uid:", toString f.real, toString f.effective, toString f.saved, toString f.fs] := by
  have decimal (n : Nat) : String.ofList (Nat.toDigits 10 n) = toString n := by
    rw [Nat.toString_eq_repr, ← Nat.toList_repr, String.ofList_toList]
  have label : ∀ c ∈ "Uid:".toList, isspace c = false := by simp [isspace]
  rw [words, String.toList_ofList, uidLine, runs_append_tabbed (by decide) label]
  simp [decimal]

theorem fileLines_text : fileLines f.text = f.lines.map String.ofList := by
  have named : newline ∉ "Name:".toList ++ tab :: f.name := by
    intro member
    rcases List.mem_append.mp member with label | rest
    · exact absurd label (by decide)
    · exact f.oneLine.1 ((List.mem_cons.mp rest).resolve_left (by decide))
  have numbered : newline ∉ f.uidLine := by
    intro member
    rcases List.mem_append.mp member with label | number
    · exact absurd label (by decide)
    · exact newline_not_mem_tabbed _ number
  have inside : ∀ line ∈ f.lines, newline ∉ line := by
    rw [lines, List.cons_append, List.forall_mem_cons, List.forall_mem_append, List.forall_mem_cons]
    exact ⟨named, f.oneLine.2.1, numbered, f.oneLine.2.2⟩
  rw [fileLines, text, getlines_flatMap inside]

end StatusFile

/-- Lines without the word leave the result as it is. -/
theorem foldl_silent {lines : List String} (silent : ∀ str ∈ lines, "Uid:" ∉ words str)
    (result : String) : lines.foldl (fun result str =>
      if "Uid:" ∈ words str then (words str).getD 1 "" else result) result = result := by
  induction lines with
  | nil => rfl
  | cons str lines ih =>
    rcases List.forall_mem_cons.mp silent with ⟨here, silent⟩
    rw [List.foldl_cons, if_neg here, ih silent]

theorem getUid_of_status (f : StatusFile) {o : Outcome} (read : o.status = some (fileLines f.text)) :
    getUid o = toString f.real := by
  have silent : ∀ str ∈ f.after.map String.ofList, "Uid:" ∉ words str := by
    intro str listed
    rcases List.mem_map.mp listed with ⟨line, member, rfl⟩
    exact f.silent line member
  rw [getUid, read, Option.getD_some, f.fileLines_text, StatusFile.lines, List.map_append,
    List.foldl_append, List.map_cons (l := f.after), List.foldl_cons, foldl_silent silent,
    f.words_uidLine, if_pos (by simp)]
  rfl

/-- Whatever the name of the process is, `get_uid` returns the first number behind `Uid:`. -/
theorem getUid_text (f : StatusFile) (o : Outcome) :
    getUid { o with status := some (fileLines f.text) } = toString f.real :=
  getUid_of_status f rfl

end Status

section Users

/-- The passwd database: the names of the uids. -/
abbrev Passwd := BitVec 32 → Option String

variable (db : Passwd)

/-- A process that the scan comes to, its real uid, and what the calls come back with. If it
exits before its status file is opened or read, there is nothing in that. -/
structure Visit where
  pid : String
  uid : BitVec 32
  outcome : Outcome
  passwd : outcome.getpwuid = fun v => db (BitVec.ofInt 32 v)
  status : outcome.status = none ∨ outcome.status = some [] ∨
    ∃ f : StatusFile, f.real = uid.toNat ∧ outcome.status = some (fileLines f.text)

/-- What the main loop stores as USER for each pid. -/
def users (visits : List (Visit db)) : Except Fault (List (String × String)) :=
  visits.mapM fun v => do return (v.pid, ← getUsername v.outcome (getUid v.outcome))

variable {db}

namespace Visit

/-- The status file can still be read. -/
def StatusRead (v : Visit db) : Prop := v.outcome.status.getD [] ≠ []

instance (v : Visit db) : Decidable v.StatusRead := inferInstanceAs (Decidable (_ ≠ _))

/-- The uid that `get_username` asks for. -/
def asked (v : Visit db) : BitVec 32 := if v.StatusRead then v.uid else 0

/-- `user` is the name of the process's real uid; it is nobody's name if that is not known, or
has none. -/
def Owned (v : Visit db) (user : String) : Prop :=
  if v.StatusRead ∧ (db v.uid).isSome then db v.uid = some user else ∀ uid, db uid ≠ some user

theorem atoi_toString {n : Nat} (fits : n < 2 ^ 63) : atoi (toString n) = (n : Int).bmod (2 ^ 32) := by
  have spelled : Spells 10 (toString n).toList n := by
    rw [Nat.toString_eq_repr, Nat.toList_repr]
    exact spells_toDigits (by decide) (by decide) n
  rw [atoi, numeral_of_spells (by decide) spelled]
  simp only [signed, Bool.false_eq_true, if_false]
  rw [if_neg (by omega), if_neg (by omega)]

theorem ofInt_getUid (v : Visit db) : BitVec.ofInt 32 (atoi (getUid v.outcome)) = v.asked := by
  have silent (status : v.outcome.status.getD [] = []) : getUid v.outcome = "" := by
    rw [getUid, status]
    rfl
  rcases v.status with none | empty | ⟨f, real, read⟩
  · have unread : v.outcome.status.getD [] = [] := by rw [none]; rfl
    rw [asked, if_neg (by simpa [StatusRead] using unread), silent unread]
    decide
  · have unread : v.outcome.status.getD [] = [] := by rw [empty]; rfl
    rw [asked, if_neg (by simpa [StatusRead] using unread), silent unread]
    decide
  · have lines : v.StatusRead := by
      rw [StatusRead, read, Option.getD_some, f.fileLines_text]
      exact List.cons_ne_nil _ _
    have fits := v.uid.isLt
    rw [asked, if_pos lines, getUid_of_status f read, real, atoi_toString (by omega)]
    apply BitVec.eq_of_toInt_eq
    rw [BitVec.toInt_ofInt, Int.bmod_bmod, BitVec.toInt_eq_toNat_bmod]

theorem getUsername_ok_iff (v : Visit db) {user : String} :
    getUsername v.outcome (getUid v.outcome) = .ok user ↔ db v.asked = some user := by
  rw [getUsername_ok, v.passwd, ← v.ofInt_getUid]

end Visit

theorem users_ok {visits : List (Visit db)} {us : List (String × String)} : users db visits = .ok us ↔
    us.map (fun u => (u.1, some u.2)) = visits.map fun v => (v.pid, db v.asked) := by
  induction visits generalizing us with
  | nil =>
    rw [List.map_nil, List.map_eq_nil_iff]
    exact ⟨fun none => (Except.ok.inj none).symm, fun none => none ▸ rfl⟩
  | cons v visits ih =>
    rw [users, List.mapM_cons, List.map_cons, List.map_eq_cons_iff]
    simp only [except_bind_ok, v.getUsername_ok_iff]
    constructor
    · rintro ⟨_, ⟨user, named, ⟨⟩⟩, rest, later, ⟨⟩⟩
      exact ⟨_, _, rfl, by rw [named], ih.mp later⟩
    · rintro ⟨⟨pid, user⟩, rest, rfl, here, later⟩
      rcases Prod.mk.inj here with ⟨rfl, named⟩
      exact ⟨_, ⟨user, named.symm, rfl⟩, rest, ih.mpr later, rfl⟩

/-- The rows that a scan prints bear these users. -/
theorem scan_users {visits : List (Visit db)} {table : List (PidInfo × List Row)}
    (run : scan (visits.map fun v => (v.pid, v.outcome)) = .ok table) :
    users db visits = .ok (table.map fun p => (p.1.pid, p.1.username)) := by
  induction visits generalizing table with
  | nil =>
    cases run
    rfl
  | cons v visits ih =>
    simp only [scan, List.map_cons, List.mapM_cons, except_bind_ok] at run
    rcases run with ⟨p, collected, rest, later, ⟨⟩⟩
    simp only [collect, except_bind_ok] at collected
    rcases collected with ⟨user, named, -, -, -, -, -, -, -, -, -, -, ⟨⟩⟩
    rw [users, List.mapM_cons]
    simp only [except_bind_ok]
    exact ⟨_, ⟨user, named, rfl⟩, _, ih later, rfl⟩

/-- The processes that the directory lists, each once. -/
structure Listing (db : Passwd) where
  visits : List (Visit db)
  distinct : (visits.map Visit.pid).Nodup

/-- Every USER that is printed is the process's own. -/
def Listing.UsersOwned (l : Listing db) : Prop :=
  ∀ us, users db l.visits = .ok us → ∀ v ∈ l.visits, ∀ user, (v.pid, user) ∈ us → v.Owned user

/-- No process is attributed to a stranger if and only if all status files can still be read,
or the scan does not survive because it asks for a uid without a name. -/
theorem usersOwned_iff (l : Listing db) : l.UsersOwned ↔
    (∀ v ∈ l.visits, v.StatusRead) ∨ ∃ v ∈ l.visits, db v.asked = none := by
  constructor
  · intro owned
    by_contra neither
    rcases not_or.mp neither with ⟨unread, named⟩
    push Not at unread named
    rcases unread with ⟨v, listed, unread⟩
    have shown : ∃ us : List (String × String),
        us.map (fun u => (u.1, some u.2)) = l.visits.map fun v => (v.pid, db v.asked) := by
      refine ⟨l.visits.map fun v => (v.pid, (db v.asked).getD ""), ?_⟩
      rw [List.map_map]
      apply List.map_congr_left
      intro v' listed'
      rcases Option.ne_none_iff_exists'.mp (named v' listed') with ⟨user, known⟩
      simp [known]
    rcases shown with ⟨us, shown⟩
    have member := List.mem_map_of_mem (f := fun v : Visit db => (v.pid, db v.asked)) listed
    rw [← shown] at member
    rcases List.mem_map.mp member with ⟨⟨pid, user⟩, printed, same⟩
    rcases Prod.mk.inj same with ⟨rfl, known⟩
    have foreign := owned us (users_ok.mpr shown) v listed user printed
    rw [Visit.Owned, if_neg fun both => unread both.1] at foreign
    exact foreign v.asked known.symm
  · rintro (read | ⟨v, listed, unnamed⟩) us run
    · intro v listed user printed
      have member := List.mem_map_of_mem (f := fun u : String × String => (u.1, some u.2)) printed
      rw [users_ok.mp run] at member
      rcases List.mem_map.mp member with ⟨v', listed', same⟩
      rcases Prod.mk.inj same with ⟨pid, known⟩
      obtain rfl : v' = v := List.inj_on_of_nodup_map l.distinct listed' listed pid
      rw [Visit.asked, if_pos (read _ listed)] at known
      rw [Visit.Owned, if_pos ⟨read _ listed, by rw [known]; rfl⟩]
      exact known
    · have member := List.mem_map_of_mem (f := fun v : Visit db => (v.pid, db v.asked)) listed
      rw [← users_ok.mp run] at member
      rcases List.mem_map.mp member with ⟨u, -, same⟩
      rw [unnamed] at same
      cases (Prod.mk.inj same).2

/-- A database with two users. -/
def twoUsers : Passwd := fun uid => if uid = 0 then some "root" else if uid = 1 then some "daemon" else none

/-- A process of `daemon` that exits before its status file is opened. -/
def exited : Visit twoUsers where
  pid := "42"
  uid := 1
  outcome := { closing with status := none, getpwuid := fun v => twoUsers (BitVec.ofInt 32 v) }
  passwd := rfl
  status := .inl rfl

theorem users_names_root :
    users twoUsers [exited] = .ok [("42", "root")] ∧ ¬ Listing.UsersOwned ⟨[exited], by simp⟩ := by
  have run : users twoUsers [exited] = .ok [("42", "root")] := users_ok.mpr rfl
  refine ⟨run, fun owned => ?_⟩
  have foreign := owned _ run exited (by simp) "root" (by simp [exited])
  rw [Visit.Owned, if_neg (by decide)] at foreign
  exact foreign 0 rfl

end Users

end UnixProgramming.Lsof
