import UnixProgramming.Foundation.InPlace

/-!
# The table and its filters

`lsof` scans every process into a table, erases what its options filter out, and prints
a row for each descriptor that is left. A filter that is the empty string lets
everything through; the others are regular expressions.
-/

namespace UnixProgramming.Lsof

open InPlace

structure FileDescriptor where
  fd : String
  type : String
  node : String
  name : String
  deriving DecidableEq

structure PidInfo where
  pid : String
  uid : String
  username : String
  comm : String
  fileDesc : List FileDescriptor
  deriving DecidableEq

abbrev Table := List PidInfo

section Print

/-- One row of the output. -/
def line (info : PidInfo) (desc : FileDescriptor) : String :=
  info.comm ++ "\t" ++ info.pid ++ "\t" ++ info.username ++ "\t" ++
    desc.fd ++ "\t" ++ desc.type ++ "\t" ++ desc.node ++ "\t" ++ desc.name ++ "\n"

def printAll (lsof : Table) : List String :=
  lsof.flatMap fun info => info.fileDesc.map (line info)

end Print

section Search

-- `regex_search`, of the text and the pattern
variable (regexSearch : String → String → Bool)

def searchComm (lsof : Table) (comm : String) : Table :=
  if comm ≠ "" then
    eraseFrom (fun info => regexSearch info.comm comm) 0 lsof
  else
    lsof

/-- The loop of `search_type` and `search_file`, which differ in the field they look at. -/
def searchDesc (field : FileDescriptor → String) (lsof : Table) (pattern : String) : Table :=
  if pattern ≠ "" then
    updateFrom (fun info => { info with
      fileDesc := eraseFrom (fun desc => regexSearch (field desc) pattern) 0 info.fileDesc }) 0 lsof
  else
    lsof

def searchType (lsof : Table) (type : String) : Table :=
  searchDesc regexSearch FileDescriptor.type lsof type

def searchFile (lsof : Table) (file : String) : Table :=
  searchDesc regexSearch FileDescriptor.name lsof file

end Search

section Sieve

/-- The table with the processes and the descriptors that pass. -/
def sieve (comm : String → Bool) (desc : FileDescriptor → Bool) (lsof : Table) : Table :=
  (lsof.filter fun info => comm info.comm).map fun info =>
    { info with fileDesc := info.fileDesc.filter desc }

theorem sieve_sieve (comm comm' : String → Bool) (desc desc' : FileDescriptor → Bool)
    (lsof : Table) :
    sieve comm' desc' (sieve comm desc lsof) =
      sieve (fun s => comm s && comm' s) (fun d => desc d && desc' d) lsof := by
  induction lsof with
  | nil => rfl
  | cons info lsof ih =>
    unfold sieve at ih ⊢
    cases first : comm info.comm <;> cases second : comm' info.comm <;>
      simp_all [List.filter_filter, Bool.and_comm]

/-- The rows of the table. -/
def rows (lsof : Table) : List (PidInfo × FileDescriptor) :=
  lsof.flatMap fun info => info.fileDesc.map fun desc => (info, desc)

theorem printAll_sieve (comm : String → Bool) (desc : FileDescriptor → Bool) (lsof : Table) :
    printAll (sieve comm desc lsof) =
      ((rows lsof).filter fun row => comm row.1.comm && desc row.2).map fun row =>
        line row.1 row.2 := by
  induction lsof with
  | nil => rfl
  | cons info lsof ih =>
    unfold printAll sieve rows at ih ⊢
    rw [List.flatMap_cons, List.filter_append, List.map_append, ← ih, List.filter_map]
    cases passes : comm info.comm with
    | true =>
      have kept : ((fun row : PidInfo × FileDescriptor => comm row.1.comm && desc row.2) ∘
          fun d => (info, d)) = desc := by
        funext d
        simp [passes]
      rw [List.filter_cons, if_pos passes, List.map_cons, List.flatMap_cons, kept, List.map_map]
      rfl
    | false =>
      have erased : ((fun row : PidInfo × FileDescriptor => comm row.1.comm && desc row.2) ∘
          fun d => (info, d)) = fun _ => false := by
        funext d
        simp [passes]
      rw [List.filter_cons, passes, erased]
      simp

end Sieve

section Exact

variable (regexSearch : String → String → Bool)

/-- What a filter lets through. -/
def passes (pattern text : String) : Bool := pattern = "" || regexSearch text pattern

theorem searchComm_eq_sieve (lsof : Table) (comm : String) :
    searchComm regexSearch lsof comm = sieve (passes regexSearch comm) (fun _ => true) lsof := by
  by_cases none : comm = ""
  · simp [searchComm, passes, none, sieve]
  · simp [searchComm, passes, none, sieve, eraseFrom_zero]

theorem searchDesc_eq_sieve (field : FileDescriptor → String) (lsof : Table) (pattern : String) :
    searchDesc regexSearch field lsof pattern =
      sieve (fun _ => true) (fun desc => passes regexSearch pattern (field desc)) lsof := by
  by_cases none : pattern = ""
  · simp [searchDesc, passes, none, sieve]
  · simp [searchDesc, passes, none, sieve, eraseFrom_zero, updateFrom_zero]

inductive Filter where
  | comm
  | type
  | file
  deriving DecidableEq

variable (comm type file : String)

def Filter.search (lsof : Table) : Filter → Table
  | .comm => searchComm regexSearch lsof comm
  | .type => searchType regexSearch lsof type
  | .file => searchFile regexSearch lsof file

/-- What the filter lets through of the processes, and of the descriptors. -/
def Filter.comms : Filter → String → Bool
  | .comm => passes regexSearch comm
  | _ => fun _ => true

def Filter.descs : Filter → FileDescriptor → Bool
  | .comm => fun _ => true
  | .type => fun desc => passes regexSearch type desc.type
  | .file => fun desc => passes regexSearch file desc.name

theorem Filter.search_eq_sieve (f : Filter) (lsof : Table) :
    f.search regexSearch comm type file lsof =
      sieve (f.comms regexSearch comm) (f.descs regexSearch type file) lsof := by
  cases f with
  | comm => exact searchComm_eq_sieve regexSearch lsof comm
  | type => exact searchDesc_eq_sieve regexSearch _ lsof type
  | file => exact searchDesc_eq_sieve regexSearch _ lsof file

/-- A sequence of filters is the sieve of all of them. -/
theorem foldl_search_eq_sieve (fs : List Filter) (lsof : Table) :
    fs.foldl (Filter.search regexSearch comm type file) lsof =
      sieve (fun s => fs.all fun f => f.comms regexSearch comm s)
        (fun d => fs.all fun f => f.descs regexSearch type file d) lsof := by
  induction fs generalizing lsof with
  | nil => simp [sieve]
  | cons f fs ih => rw [List.foldl_cons, ih, Filter.search_eq_sieve, sieve_sieve]; rfl

theorem all_filters {fs : List Filter} (complete : [.comm, .type, .file] ⊆ fs) (p : Filter → Bool) :
    fs.all p = (p .comm && (p .type && p .file)) := by
  rw [Bool.eq_iff_iff, List.all_eq_true, Bool.and_eq_true, Bool.and_eq_true]
  constructor
  · intro every
    exact ⟨every _ (complete (by simp)), every _ (complete (by simp)), every _ (complete (by simp))⟩
  · rintro ⟨onComm, onType, onFile⟩ f _
    cases f with
    | comm => exact onComm
    | type => exact onType
    | file => exact onFile

/-- The rows printed after the three filters are those of the scanned table that all of
them let through, and any sequence of filters with all three in it gives the same table. -/
theorem filters_exact (lsof : Table) :
    let filtered :=
      searchFile regexSearch (searchType regexSearch (searchComm regexSearch lsof comm) type) file
    (printAll filtered = ((rows lsof).filter fun row =>
        passes regexSearch comm row.1.comm && (passes regexSearch type row.2.type &&
          passes regexSearch file row.2.name)).map fun row => line row.1 row.2) ∧
      ∀ fs : List Filter, [.comm, .type, .file] ⊆ fs →
        fs.foldl (Filter.search regexSearch comm type file) lsof = filtered := by
  have sieved (fs : List Filter) (complete : [.comm, .type, .file] ⊆ fs) :
      fs.foldl (Filter.search regexSearch comm type file) lsof =
        sieve (passes regexSearch comm) (fun desc => passes regexSearch type desc.type &&
          passes regexSearch file desc.name) lsof := by
    rw [foldl_search_eq_sieve]
    simp [all_filters complete, Filter.comms, Filter.descs]
  intro filtered
  have filtered_eq : filtered = _ := sieved [.comm, .type, .file] (List.Subset.refl _)
  constructor
  · rw [filtered_eq, printAll_sieve]
  · intro fs complete
    rw [sieved fs complete, filtered_eq]

end Exact

end UnixProgramming.Lsof
