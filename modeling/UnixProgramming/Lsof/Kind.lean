import UnixProgramming.Lsof.Mem

/-!
# Filtering by type

The option `-t` names a kind of file, and `search_type` takes it for a regular expression
that is searched for in the TYPE of the rows. There the kinds without a name of their own
are `Blok`, `LINK` and `unknow`, and only files that could not be looked at are `unknown`.
-/

namespace UnixProgramming.Lsof

open Stateful

section Regex

/-- Regular expressions: what `regex` makes of a pattern, which is nothing if it throws, and
what `regex_search` says of a text. A pattern of letters is searched for as it stands. -/
structure Regex where
  compile : String → Option (String → Bool)
  literal : ∀ pattern, pattern ≠ "" → pattern.toList.all Char.isAlpha = true →
    ∃ search, compile pattern = some search ∧
      ∀ text, search text = true ↔ pattern.toList <:+: text.toList

/-- A filter without a pattern has no regular expression. -/
def Regex.search (regex : Regex) (pattern : String) : Option (String → String → Bool) :=
  if pattern = "" then some fun _ _ => true
  else (regex.compile pattern).map fun search text _ => search text

/-- The table that `main` prints. An invalid pattern ends the program before that. -/
def filtered (regex : Regex) (comm type file : String) (lsof : Table) : Option Table := do
  let lsof := searchComm (← regex.search comm) lsof comm
  let lsof := searchType (← regex.search type) lsof type
  return searchFile (← regex.search file) lsof file

end Regex

section Kinds

/-- The kinds of files that the option can name. -/
inductive Kind where
  | reg
  | chr
  | dir
  | fifo
  | sock
  | unknown
  deriving DecidableEq

def Kind.name : Kind → String
  | .reg => "REG"
  | .chr => "CHR"
  | .dir => "DIR"
  | .fifo => "FIFO"
  | .sock => "SOCK"
  | .unknown => "unknown"

def Kind.ofName? (name : String) : Option Kind :=
  [Kind.reg, .chr, .dir, .fifo, .sock, .unknown].find? fun kind => kind.name = name

/-- The kind of a file with that mode. -/
def kindOf (mode : BitVec 32) : Kind :=
  if mode &&& S_IFMT = 0o100000 then .reg
  else if mode &&& S_IFMT = 0o020000 then .chr
  else if mode &&& S_IFMT = 0o040000 then .dir
  else if mode &&& S_IFMT = 0o010000 then .fifo
  else if mode &&& S_IFMT = 0o140000 then .sock
  else .unknown

/-- The file that a row shows; without a mode if it is not accessible. -/
structure ShownFile where
  mode : Option (BitVec 32)
  deleted : Bool

def ShownFile.kind (file : ShownFile) : Kind :=
  if file.deleted then .unknown else (file.mode.map kindOf).getD .unknown

end Kinds

section Types

/-- The TYPE for the mode that `stat` has reported, or for a file that it was not asked about. -/
def typeOf : Option (BitVec 32) → String
  | none => "unknown"
  | some mode => getType ⟨mode, 0⟩

/-- What `get_type` makes of the kinds. -/
def types : List (String × Kind) :=
  [("Blok", .unknown), ("CHR", .chr), ("DIR", .dir), ("FIFO", .fifo), ("LINK", .unknown),
    ("REG", .reg), ("SOCK", .sock), ("unknow", .unknown)]

theorem getType_mem_types (mode : BitVec 32) : (getType ⟨mode, 0⟩, kindOf mode) ∈ types := by
  unfold getType kindOf types
  split_ifs <;> simp_all

/-- The name of a kind is found in the TYPE of no other kind, and `unknown` only where `stat`
was not asked. -/
theorem infix_typeOf (kind : Kind) (seen : Option (BitVec 32)) :
    kind.name.toList <:+: (typeOf seen).toList ↔
      if kind = .unknown then seen = none else seen.map kindOf = some kind := by
  have named : ∀ pair ∈ types,
      (kind.name.toList <:+: pair.1.toList ↔ kind ≠ .unknown ∧ pair.2 = kind) := by
    cases kind <;> decide
  cases seen with
  | none => cases kind <;> decide
  | some mode =>
    rw [typeOf, named _ (getType_mem_types mode)]
    by_cases rest : kind = .unknown <;> simp [rest]

end Types

section Filter

/-- A row with the mode that its TYPE comes from, and the file that it shows. -/
structure Entry where
  desc : FileDescriptor
  seen : Option (BitVec 32)
  file : ShownFile
  typed : desc.type = typeOf seen

/-- A process of the table with its rows. -/
structure Scanned where
  info : PidInfo
  entries : List Entry
  shown : info.fileDesc = entries.map Entry.desc

/-- The process with the rows of that kind. -/
def Scanned.keeping (p : Scanned) (kind : Kind) : PidInfo :=
  { p.info with fileDesc := (p.entries.filter fun e => e.file.kind = kind).map Entry.desc }

variable (regex : Regex) (scan : List Scanned) (t : String)

/-- What `-t` leaves of the table. -/
def selected : Option Table := filtered regex "" t "" (scan.map Scanned.info)

/-- The rows that are printed are those of the kind that the option names; if it names none,
nothing is printed. -/
def SelectsByKind : Prop :=
  match Kind.ofName? t with
  | some kind => selected regex scan t = some (scan.map fun p => p.keeping kind)
  | none => rows ((selected regex scan t).getD []) = []

/-- `stat` has seen the files of the kind, and no others, with a mode of the kind; for
`unknown` it has not been asked about them. -/
def KindSeen (kind : Kind) (e : Entry) : Prop :=
  (if kind = .unknown then e.seen = none else e.seen.map kindOf = some kind) ↔ e.file.kind = kind

/-- There is no row that the expression matches. -/
def MatchesNothing : Prop :=
  (∀ p ∈ scan, p.entries = []) ∨
    t ≠ "" ∧ ∀ search, regex.compile t = some search →
      ∀ p ∈ scan, ∀ e ∈ p.entries, search (typeOf e.seen) = false

variable {regex scan t}

/-- Two filters leave the same of a list if and only if they agree on it. -/
theorem filter_map_eq_iff {α β : Type} {f : α → β} {p : β → Bool} {q : α → Bool} {xs : List α} :
    (xs.map f).filter p = (xs.filter q).map f ↔ ∀ x ∈ xs, p (f x) = q x := by
  rw [List.filter_map]
  constructor
  · intro same
    have passes : ∀ x ∈ xs, q x = true → p (f x) = true := by
      intro x listed kept
      have image : f x ∈ (xs.filter q).map f := List.mem_map_of_mem (List.mem_filter.mpr ⟨listed, kept⟩)
      rw [← same] at image
      rcases List.mem_map.mp image with ⟨y, inside, equal⟩
      rw [← equal]
      exact (List.mem_filter.mp inside).2
    have fewer : (xs.filter q).Sublist (xs.filter (p ∘ f)) := by
      have within : xs.filter q = (xs.filter (p ∘ f)).filter q := by
        rw [List.filter_filter]
        refine List.filter_congr fun x listed => ?_
        cases kept : q x with
        | true => exact (passes x listed kept).symm
        | false => rfl
      rw [within]
      exact List.filter_sublist
    have equal : xs.filter q = xs.filter (p ∘ f) := by
      apply fewer.eq_of_length
      have lengths := congrArg List.length same
      rwa [List.length_map, List.length_map, eq_comm] at lengths
    intro x listed
    have members : x ∈ xs.filter q ↔ x ∈ xs.filter (p ∘ f) := by rw [equal]
    rw [List.mem_filter, List.mem_filter, and_congr_right_iff] at members
    exact Bool.eq_iff_iff.mpr (members listed).symm
  · intro agree
    exact congrArg _ (List.filter_congr agree)

theorem selected_eq : selected regex scan t =
    (regex.search t).map fun search => searchType search (scan.map Scanned.info) t := by
  have quiet : regex.search "" = some fun _ _ => true := rfl
  rw [selected, filtered, quiet]
  cases regex.search t <;> rfl

theorem searchType_eq {search : String → Bool} (pattern : t ≠ "") :
    searchType (fun text _ => search text) (scan.map Scanned.info) t = scan.map fun p =>
      { p.info with fileDesc := (p.entries.map Entry.desc).filter fun desc => search desc.type } := by
  have matched (text : String) : passes (fun text _ => search text) t text = search text := by
    simp [passes, pattern]
  rw [searchType, searchDesc_eq_sieve, sieve]
  simp only [matched, List.filter_true, List.map_map]
  refine List.map_congr_left fun p _ => ?_
  simp [p.shown]

/-- For a kind, what is found in the TYPE decides. -/
theorem selectsByKind_name {kind : Kind} : SelectsByKind regex scan kind.name ↔
    ∀ p ∈ scan, ∀ e ∈ p.entries, KindSeen kind e := by
  have named : Kind.ofName? kind.name = some kind := by cases kind <;> rfl
  have pattern : kind.name ≠ "" := by cases kind <;> decide
  have letters : kind.name.toList.all Char.isAlpha = true := by cases kind <;> decide
  rcases regex.literal kind.name pattern letters with ⟨search, compiled, found⟩
  have searched : regex.search kind.name = some fun text _ => search text := by
    rw [Regex.search, if_neg pattern, compiled]
    rfl
  rw [SelectsByKind, named, selected_eq, searched, Option.map_some]
  dsimp only
  rw [searchType_eq pattern, Option.some.injEq, List.map_inj_left]
  refine forall₂_congr fun p _ => ?_
  rw [Scanned.keeping, PidInfo.mk.injEq]
  simp only [true_and]
  rw [filter_map_eq_iff]
  refine forall₂_congr fun e _ => ?_
  rw [Bool.eq_iff_iff, found, e.typed, infix_typeOf, decide_eq_true_eq]
  rfl

theorem rows_eq_nil {lsof : Table} : rows lsof = [] ↔ ∀ info ∈ lsof, info.fileDesc = [] := by
  simp [rows]

/-- For any other option, no TYPE must match. -/
theorem selectsByKind_other (other : Kind.ofName? t = none) :
    SelectsByKind regex scan t ↔ MatchesNothing regex scan t := by
  have same : SelectsByKind regex scan t ↔ rows ((selected regex scan t).getD []) = [] := by
    rw [SelectsByKind, other]
  rw [same, selected_eq, MatchesNothing]
  by_cases pattern : t = ""
  · have unfiltered (search : String → String → Bool) : searchType search (scan.map Scanned.info) t =
        scan.map Scanned.info := by
      simp [searchType, searchDesc, pattern]
    have empty : regex.search t = some fun _ _ => true := by rw [Regex.search, if_pos pattern]
    rw [empty, Option.map_some, Option.getD_some, unfiltered, rows_eq_nil, List.forall_mem_map,
      or_iff_left fun both => both.1 pattern]
    refine forall₂_congr fun p _ => ?_
    rw [p.shown, List.map_eq_nil_iff]
  · have matched : (∀ p ∈ scan, p.entries = []) ∨ (t ≠ "" ∧ ∀ search, regex.compile t = some search →
        ∀ p ∈ scan, ∀ e ∈ p.entries, search (typeOf e.seen) = false) ↔
          ∀ search, regex.compile t = some search →
            ∀ p ∈ scan, ∀ e ∈ p.entries, search (typeOf e.seen) = false := by
      rw [and_iff_right pattern, or_iff_right_of_imp]
      intro none search _ p listed e inside
      rw [none p listed] at inside
      cases inside
    rw [matched, Regex.search, if_neg pattern]
    cases compiled : regex.compile t with
    | none => exact iff_of_true rfl fun _ found => by cases found
    | some search =>
      rw [Option.map_some, Option.map_some, Option.getD_some, searchType_eq pattern, rows_eq_nil,
        List.forall_mem_map]
      simp only [Option.some.injEq, forall_eq']
      refine forall₂_congr fun p _ => ?_
      rw [List.filter_eq_nil_iff, List.forall_mem_map]
      refine forall₂_congr fun e _ => ?_
      rw [Bool.not_eq_true, e.typed]

/-- The option selects by kind if and only if `stat` has seen exactly the files of that kind with
such a mode, or as far as an option that names no kind matches nothing. -/
theorem selectsByKind_iff (regex : Regex) (scan : List Scanned) (t : String) :
    SelectsByKind regex scan t ↔
      match Kind.ofName? t with
      | some kind => ∀ p ∈ scan, ∀ e ∈ p.entries, KindSeen kind e
      | none => MatchesNothing regex scan t := by
  cases named : Kind.ofName? t with
  | none => exact selectsByKind_other named
  | some kind =>
    have same : kind.name = t := by simpa using List.find?_some named
    rw [← same]
    exact selectsByKind_name

/-- Patterns of letters, searched for as they stand. -/
def plainRegex : Regex where
  compile pattern :=
    if pattern.toList.all Char.isAlpha then
      some fun text => decide (pattern.toList <:+: text.toList)
    else
      none
  literal _ _ letters := ⟨_, if_pos letters, fun _ => decide_eq_true_iff⟩

/-- A descriptor of a disk. -/
def disk : Scanned where
  info := ⟨"42", "0", "root", "fdisk", [⟨"3u", "Blok", "301", "/dev/sda"⟩]⟩
  entries := [⟨⟨"3u", "Blok", "301", "/dev/sda"⟩, some 0o060660, ⟨some 0o060660, false⟩, by decide⟩]
  shown := rfl

theorem unknown_hides_disk :
    selected plainRegex [disk] "unknown" = some [{ disk.info with fileDesc := [] }] ∧
      ¬ SelectsByKind plainRegex [disk] "unknown" := by
  constructor
  · exact selected_eq.trans (congrArg some (searchType_eq (by decide)))
  · intro selects
    have named : SelectsByKind plainRegex [disk] Kind.unknown.name := selects
    have seen := selectsByKind_name.mp named disk (List.mem_singleton_self _) _ (List.mem_singleton_self _)
    have unasked := seen.mpr (by decide)
    cases unasked

end Filter

section Scan

/-- The TYPE of the row is one that a collector gives. -/
def Row.Typed (row : Row) : Prop := ∃ seen, row.desc.type = typeOf seen

variable {pid : String} {o : Outcome}

theorem getLink_typed {fd : String} {link : Link} {row : Row} (run : getLink fd pid link = .ok row) :
    row.Typed := by
  unfold getLink at run
  split at run
  · rcases except_bind_ok.mp run with ⟨name, -, rest⟩
    rcases except_bind_ok.mp rest with ⟨sb, -, collected⟩
    cases collected
    exact ⟨some sb.stat.mode, rfl⟩
  · cases run
    exact ⟨none, rfl⟩

theorem getMem_typed {rows : List Row} (run : getMem pid o = .ok rows) : ∀ row ∈ rows, row.Typed := by
  intro row listed
  rcases (getMem_distinct run).2 row listed with ⟨word, sb, -, rfl⟩
  exact ⟨some sb.mode, rfl⟩

theorem readFds_typed {es : List FdEntry} {k : Nat} {sb : Option Filled} {rows : List Row}
    (run : readFds pid es k sb = .ok rows) : ∀ row ∈ rows, row.Typed := by
  induction es generalizing k sb rows with
  | nil =>
    cases run
    exact nofun
  | cons e es ih =>
    by_cases number : isNumber e.name
    · rcases (readFds_cons number).mp run with ⟨name, seen, rest, -, -, later, rfl⟩
      exact List.forall_mem_cons.mpr ⟨⟨some seen.stat.mode, rfl⟩, ih later⟩
    · rw [readFds, if_neg number] at run
      exact ih run

theorem getFd_typed {rows : List Row} (run : getFd pid o = .ok rows) : ∀ row ∈ rows, row.Typed := by
  unfold getFd at run
  split at run
  · split at run
    · exact readFds_typed run
    · cases run
  · cases run

theorem collect_typed {r : PidInfo × List Row} (run : collect pid o = .ok r) :
    r.1.fileDesc = r.2.map Row.desc ∧ ∀ row ∈ r.2, row.Typed := by
  simp only [collect, except_bind_ok] at run
  rcases run with ⟨-, -, cwd, hcwd, root, hroot, exe, hexe, mem, hmem, fd, hfd, ⟨⟩⟩
  refine ⟨rfl, ?_⟩
  simp only [List.forall_mem_append, List.forall_mem_cons]
  have nothing : ∀ row ∈ ([] : List Row), row.Typed := fun _ none => absurd none List.not_mem_nil
  exact ⟨⟨⟨getLink_typed hcwd, getLink_typed hroot, getLink_typed hexe, nothing⟩,
    getMem_typed hmem⟩, getFd_typed hfd⟩

theorem scan_typed {processes : List (String × Outcome)} {table : List (PidInfo × List Row)}
    (run : scan processes = .ok table) :
    ∀ r ∈ table, r.1.fileDesc = r.2.map Row.desc ∧ ∀ row ∈ r.2, row.Typed := by
  have each := except_mapM_ok.mp ⟨table, run, fun _ _ => trivial⟩
  rcases except_mapM_ok.mpr fun x listed => (each x listed).imp fun _ got =>
    ⟨got.1, collect_typed got.1⟩ with ⟨table', run', typed⟩
  obtain rfl := Except.ok.inj (run.symm.trans run')
  exact typed

/-- Whatever the rows of a scan show, its table is one that the filter is about. -/
theorem scanned_of_scan {processes : List (String × Outcome)} {table : List (PidInfo × List Row)}
    (run : scan processes = .ok table) (file : Row → ShownFile) :
    ∃ scan : List Scanned, scan.map (fun p => (p.info, p.entries.map fun e => (e.desc, e.file))) =
      table.map fun r => (r.1, r.2.map fun row => (row.desc, file row)) := by
  have typed := scan_typed run
  clear run
  have entries {rows : List Row} (typed : ∀ row ∈ rows, row.Typed) : ∃ es : List Entry,
      es.map (fun e => (e.desc, e.file)) = rows.map fun row => (row.desc, file row) := by
    induction rows with
    | nil => exact ⟨[], rfl⟩
    | cons row rows ih =>
      rcases List.forall_mem_cons.mp typed with ⟨⟨seen, type⟩, typed⟩
      rcases ih typed with ⟨es, same⟩
      exact ⟨⟨row.desc, seen, file row, type⟩ :: es, by rw [List.map_cons, List.map_cons, same]⟩
  induction table with
  | nil => exact ⟨[], rfl⟩
  | cons r table ih =>
    rcases List.forall_mem_cons.mp typed with ⟨⟨descs, rows⟩, typed⟩
    rcases ih typed with ⟨scan, same⟩
    rcases entries rows with ⟨es, shown⟩
    have listed : r.1.fileDesc = es.map Entry.desc := by
      have firsts := congrArg (List.map Prod.fst) shown
      rw [List.map_map, List.map_map] at firsts
      rw [descs]
      exact firsts.symm
    exact ⟨⟨r.1, es, listed⟩ :: scan, by rw [List.map_cons, List.map_cons, same, shown]⟩

end Scan

end UnixProgramming.Lsof
