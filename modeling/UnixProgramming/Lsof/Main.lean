import Mathlib.Data.List.Sort
import Mathlib.Data.String.Basic
import UnixProgramming.Foundation.Getopt
import UnixProgramming.Lsof.Kind

/-!
# The whole of `lsof`

`main` scans the processes in the order of their names and looks at its options only
afterwards. An invalid option costs a line of the output and nothing else; an option that
is given again replaces the filter.
-/

namespace UnixProgramming.Lsof

open Getopt Text

section Main

/-- `DigitFilter`, of the name of an entry. -/
def digitFilter (dName : String) : Bool := dName.toList.head?.any isdigit

/-- `scandir` with `alphasort`, of the entries of `/proc` in any order. -/
def scandir (listing : List (String × Outcome)) : List (String × Outcome) :=
  (listing.filter fun entry => digitFilter entry.1).mergeSort fun a b => decide (a.1 ≤ b.1)

def printPrefix : String := "COMMAND\tPID\tUSER\tFD\tTYPE\tNODE\tNAME\n"

/-- What the collectors print about the files of a process that they cannot open. -/
def messages (pid : String) (o : Outcome) : List String :=
  (if o.comm.isNone then ["/proc/" ++ pid ++ "/comm get_comm error!\n"] else []) ++
    (if o.status.isNone then ["/proc/" ++ pid ++ "/status get_uid error!\n"] else []) ++
    if o.mapsAccess && o.maps.isNone then [memPath pid ++ " get_mem error\n"] else []

/-- The option string `"c:t:f:"`. -/
def takesArg (c : Char) : Option Bool := if c = 'c' ∨ c = 't' ∨ c = 'f' then some true else none

structure Options where
  argComm : String
  argType : String
  argFile : String

/-- The loop over the options, with the lines that it prints. -/
def takeOptions : Options → List Item → Options × List String
  | options, [] => (options, [])
  | options, .option 'c' (some optarg) :: items =>
    takeOptions { options with argComm := String.ofList optarg } items
  | options, .option 't' (some optarg) :: items =>
    takeOptions { options with argType := String.ofList optarg } items
  | options, .option 'f' (some optarg) :: items =>
    takeOptions { options with argFile := String.ofList optarg } items
  | options, _ :: items => ((takeOptions options items).1, "input error!\n" :: (takeOptions options items).2)

/-- How `main` ends: with what it has printed, in a collector, or with the exception for an
invalid regular expression. -/
inductive Ending where
  | exited (out : List String)
  | crashed (fault : Fault)
  | regexError

-- `cmd_opt` is -1 behind the loop, so that the three filters are always called
def main (regex : Regex) (listing : List (String × Outcome)) (words : List Word) : Ending :=
  match scan (scandir listing) with
  | .error fault => .crashed fault
  | .ok table =>
    let taken := takeOptions ⟨"", "", ""⟩ (Getopt.scan takesArg none words).1
    match filtered regex taken.1.argComm taken.1.argType taken.1.argFile (table.map Prod.fst) with
    | none => .regexError
    | some lsof => .exited (printPrefix ::
        ((scandir listing).flatMap fun process => messages process.1 process.2) ++ taken.2 ++ printAll lsof)

end Main

section Order

variable {listing ps : List (String × Outcome)}

/-- The processes come in ascending order, however the directory lists them. -/
theorem scandir_eq (ascending : ps.Pairwise fun p q => p.1 < q.1)
    (listed : ps.Perm (listing.filter fun entry => digitFilter entry.1)) : scandir listing = ps := by
  have sorted : (scandir listing).Pairwise fun a b => decide (a.1 ≤ b.1) = true := by
    refine List.pairwise_mergeSort ?_ ?_ _
    · intro a b c ab bc
      exact decide_eq_true (le_trans (of_decide_eq_true ab) (of_decide_eq_true bc))
    · intro a b
      rw [Bool.or_eq_true, decide_eq_true_eq, decide_eq_true_eq]
      exact le_total a.1 b.1
  have same : (scandir listing).Perm ps := (List.mergeSort_perm _ _).trans listed.symm
  refine same.eq_of_pairwise ?_ sorted (ascending.imp fun less => decide_eq_true less.le)
  intro p q inside here pq qp
  have names : (ps.map Prod.fst).Nodup := (List.pairwise_map.mpr ascending).imp ne_of_lt
  have name : p.1 = q.1 := le_antisymm (of_decide_eq_true pq) (of_decide_eq_true qp)
  exact List.inj_on_of_nodup_map names (same.mem_iff.mp inside) here name

end Order

section Options

/-- The last argument that was given for an option. -/
def given (c : Char) (items : List Item) : Option String :=
  (items.filterMap fun
    | .option k (some optarg) => if k = c then some (String.ofList optarg) else none
    | _ => none).getLast?

theorem known_cases {item : Item} (known : item.Known takesArg) :
    item = .invalid ∨ ∃ c optarg, (c = 'c' ∨ c = 't' ∨ c = 'f') ∧ item = .option c (some optarg) := by
  cases item with
  | invalid => exact .inl rfl
  | option c optarg =>
    right
    change (if _ then _ else _) = _ at known
    split at known
    · next letter =>
      cases optarg with
      | none => cases known
      | some optarg => exact ⟨c, optarg, letter, rfl⟩
    · cases known

theorem takeOptions_eq {items : List Item} (known : ∀ item ∈ items, item.Known takesArg)
    (options : Options) : takeOptions options items =
      (⟨(given 'c' items).getD options.argComm, (given 't' items).getD options.argType,
        (given 'f' items).getD options.argFile⟩, List.replicate (items.count .invalid) "input error!\n") := by
  induction items generalizing options with
  | nil => rfl
  | cons item items ih =>
    rcases List.forall_mem_cons.mp known with ⟨first, rest⟩
    rcases known_cases first with rfl | ⟨c, optarg, rfl | rfl | rfl, rfl⟩
    · change (_, "input error!\n" :: (takeOptions options items).2) = _
      rw [ih rest]
      simp [given, List.replicate_succ]
    · rw [takeOptions, ih rest]
      simp [given, List.getLast?_cons]
    · rw [takeOptions, ih rest]
      simp [given, List.getLast?_cons]
    · rw [takeOptions, ih rest]
      simp [given, List.getLast?_cons]

end Options

section Output

variable {regex : Regex} {pattern : String} {lsof lsof' : Table}

/-- The pattern is a regular expression, or there is none. -/
def Regex.Valid (regex : Regex) (pattern : String) : Prop := (regex.search pattern).isSome

/-- The text is let through. -/
def Regex.Matches (regex : Regex) (pattern text : String) : Bool :=
  pattern = "" || (regex.compile pattern).any fun search => search text

theorem passes_search {search : String → String → Bool} (valid : regex.search pattern = some search) :
    passes search pattern = regex.Matches pattern := by
  funext text
  rw [passes, Regex.Matches]
  by_cases empty : pattern = ""
  · simp [empty]
  · rw [Regex.search, if_neg empty] at valid
    rcases Option.map_eq_some_iff.mp valid with ⟨compiled, compiles, rfl⟩
    simp [empty, compiles]

theorem filtered_eq_some {comm type file : String} : filtered regex comm type file lsof = some lsof' ↔
    (regex.Valid comm ∧ regex.Valid type ∧ regex.Valid file) ∧ lsof' = sieve (regex.Matches comm)
      (fun desc => regex.Matches type desc.type && regex.Matches file desc.name) lsof := by
  rw [filtered, Regex.Valid, Regex.Valid, Regex.Valid]
  cases onComm : regex.search comm with
  | none => simp
  | some searchOnComm =>
    cases onType : regex.search type with
    | none => simp
    | some searchOnType =>
      cases onFile : regex.search file with
      | none => simp
      | some searchOnFile =>
        change some (searchDesc _ _ (searchDesc _ _ (searchComm _ lsof comm) type) file) = _ ↔ _
        rw [searchComm_eq_sieve, searchDesc_eq_sieve, searchDesc_eq_sieve, sieve_sieve, sieve_sieve,
          passes_search onComm, passes_search onType, passes_search onFile]
        simp [eq_comm]

/-- The arguments of the filters, and the number of invalid options. -/
def filters (words : List Word) (c : Char) : String :=
  (given c (Getopt.scan takesArg none words).1).getD ""

def invalids (words : List Word) : Nat := (Getopt.scan takesArg none words).1.count .invalid

/-- The options are regular expressions. -/
def ValidFilters (regex : Regex) (words : List Word) : Prop :=
  regex.Valid (filters words 'c') ∧ regex.Valid (filters words 't') ∧ regex.Valid (filters words 'f')

/-- The rows of the table that all filters let through. -/
def kept (regex : Regex) (words : List Word) (lsof : Table) : List (PidInfo × FileDescriptor) :=
  (rows lsof).filter fun row => regex.Matches (filters words 'c') row.1.comm &&
    (regex.Matches (filters words 't') row.2.type && regex.Matches (filters words 'f') row.2.name)

theorem exited_iff {listing : List (String × Outcome)} {words : List Word} {out : List String} :
    main regex listing words = .exited out ↔ ∃ table, scan (scandir listing) = .ok table ∧
      ValidFilters regex words ∧
      out = printPrefix :: ((scandir listing).flatMap fun process => messages process.1 process.2) ++
        List.replicate (invalids words) "input error!\n" ++
        (kept regex words (table.map Prod.fst)).map fun row => line row.1 row.2 := by
  have known : ∀ item ∈ (Getopt.scan takesArg none words).1, item.Known takesArg := scan_known (by simp)
  rw [main]
  cases scan (scandir listing) with
  | error fault => simp
  | ok table =>
    dsimp only
    rw [takeOptions_eq known]
    dsimp only
    change (match filtered regex (filters words 'c') (filters words 't') (filters words 'f')
        (table.map Prod.fst) with
      | none => Ending.regexError
      | some lsof => Ending.exited (printPrefix ::
        ((scandir listing).flatMap fun process => messages process.1 process.2) ++
        List.replicate (invalids words) "input error!\n" ++ printAll lsof)) = Ending.exited out ↔ _
    cases passed : filtered regex (filters words 'c') (filters words 't') (filters words 'f')
        (table.map Prod.fst) with
    | none =>
      refine iff_of_false (by simp) ?_
      rintro ⟨_, same, valid, -⟩
      cases same
      cases passed.symm.trans (filtered_eq_some.mpr ⟨valid, rfl⟩)
    | some lsof =>
      rcases filtered_eq_some.mp passed with ⟨valid, rfl⟩
      dsimp only
      rw [printAll_sieve]
      simp [ValidFilters, kept, valid, eq_comm]

/-- What `lsof` prints: the heading, the processes' error messages, a line for each invalid
option, and those rows that the last filter of each kind lets through; the processes come
in ascending order. -/
theorem main_exited_iff {listing ps : List (String × Outcome)} (words : List Word) (out : List String)
    (ascending : ps.Pairwise fun p q => p.1 < q.1)
    (listed : ps.Perm (listing.filter fun entry => digitFilter entry.1)) :
    main regex listing words = .exited out ↔ ∃ table, scan ps = .ok table ∧
      ValidFilters regex words ∧
      out = printPrefix :: (ps.flatMap fun process => messages process.1 process.2) ++
        List.replicate (invalids words) "input error!\n" ++
        (kept regex words (table.map Prod.fst)).map fun row => line row.1 row.2 := by
  rw [← scandir_eq ascending listed]
  exact exited_iff

/-- A process without descriptors. -/
def idle : Outcome := { closing with opendir := some [] }

theorem main_exited_iff_idle :
    main plainRegex [("self", idle), ("9", idle), ("10", { idle with comm := none })]
        ["-c".toList, "bash".toList, "-fbin".toList, "-z".toList, "-ccat".toList] =
      .exited [printPrefix, "/proc/10/comm get_comm error!\n", "input error!\n",
        "cat\t9\troot\texe\tDIR\t2\t/bin/cat\n"] := by
  have ascending : [("10", { idle with comm := none }), ("9", idle)].Pairwise fun p q => p.1 < q.1 := by
    simp only [List.pairwise_cons, List.mem_singleton, forall_eq, List.Pairwise.nil, and_true]
    decide
  have listed : [("10", { idle with comm := none }), ("9", idle)].Perm
      ([("self", idle), ("9", idle), ("10", { idle with comm := none })].filter fun entry =>
        digitFilter entry.1) := .swap _ _ _
  refine (main_exited_iff _ _ ascending listed).mpr ⟨_, rfl, ?_, ?_⟩
  · exact ⟨rfl, rfl, rfl⟩
  · decide +kernel

end Output

end UnixProgramming.Lsof
