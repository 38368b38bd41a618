import Mathlib.Data.List.Nodup
import UnixProgramming.Lsof.Race

/-!
# Rows for mapped files

A line of `/proc/pid/maps` has five columns and, behind some spaces, the name of what is
mapped: a path that may have blanks in it and a mark if the file has been deleted, a label
like `[heap]`, or nothing. `get_mem` does not parse it. It takes every word with a slash
for a path, and looks at `maps` itself in place of the file.
-/

namespace UnixProgramming.Lsof

open Stateful Text

section Lines

/-- What is mapped; a file with its type and inode number. -/
inductive Backing where
  | anonymous
  | label (name : List Char)
  | file (path : List Char) (deleted : Bool) (stat : Stat)

/-- The last column. -/
def Backing.column : Backing → List Char
  | .anonymous => []
  | .label name => name
  | .file path deleted _ => path ++ if deleted then " (deleted)".toList else []

/-- Only the path of a file begins with a slash. -/
def Backing.WellFormed : Backing → Prop
  | .anonymous => True
  | .label name => name.head? ≠ some '/'
  | .file path _ _ => path.head? = some '/'

/-- A line in the format of the kernel: the range, the permissions, the offset, the device
and the inode number, and what is mapped. -/
structure Mapping where
  columns : List (List Char)
  gap : Nat
  backing : Backing
  five : columns.length = 5
  plain : ∀ column ∈ columns, column ≠ [] ∧ ∀ c ∈ column, isspace c = false ∧ c ≠ '/'
  wellFormed : backing.WellFormed

namespace Mapping

variable (m : Mapping)

def text : List Char :=
  m.columns.flatMap (· ++ [' ']) ++ (List.replicate m.gap ' ' ++ m.backing.column)

def line : String := String.ofList m.text

/-- The pathname field, for a file. -/
def pathname : Option String :=
  match m.backing with
  | .file _ _ _ => some (String.ofList m.backing.column)
  | _ => none

theorem runs_text : runs isspace m.text = m.columns ++ runs isspace m.backing.column := by
  have blank : ∀ c ∈ List.replicate m.gap ' ', isspace c = true := by
    intro c member
    rw [List.eq_of_mem_replicate member]
    decide
  have columns (rest : List Char) (columns : List (List Char))
      (plain : ∀ column ∈ columns, column ≠ [] ∧ ∀ c ∈ column, isspace c = false ∧ c ≠ '/') :
      runs isspace (columns.flatMap (· ++ [' ']) ++ rest) = columns ++ runs isspace rest := by
    induction columns with
    | nil => rfl
    | cons column columns ih =>
      rcases List.forall_mem_cons.mp plain with ⟨⟨nonempty, inner⟩, plain⟩
      rw [List.flatMap_cons, List.append_assoc, List.append_assoc, List.singleton_append,
        runs_word_append nonempty (fun c member => (inner c member).1) (by decide), ih plain]
      rfl
  rw [text, columns _ _ m.plain, runs_blank_append blank]

variable {m}

/-- The words with a slash are in the last column. -/
theorem mem_runs_text {word : List Char} (slash : '/' ∈ word) :
    word ∈ runs isspace m.text ↔ word ∈ runs isspace m.backing.column := by
  rw [runs_text, List.mem_append]
  refine or_iff_right fun member => ?_
  exact ((m.plain word member).2 '/' slash).2 rfl

end Mapping

end Lines

section Rows

variable {pid : String} {o : Outcome} {rows : List Row}

/-- The row of a word, with what `stat` has found for `maps`. -/
def IsRowOf (pid : String) (o : Outcome) (word : String) (sb : Stat) (row : Row) : Prop :=
  o.mapsStat word = some sb ∧ row = memRow pid word ⟨sb, memPath pid, 0⟩

/-- No word gets two rows. -/
theorem addWords_distinct {ws : List String} {result : List Row}
    (run : ws.foldlM (addWord pid o) result = .ok rows)
    (distinct : (result.map (·.desc.name)).Nodup) : (rows.map (·.desc.name)).Nodup ∧
      ∀ row ∈ rows, row ∈ result ∨ ∃ word sb, IsRowOf pid o word sb row := by
  induction ws generalizing result with
  | nil =>
    cases run
    exact ⟨distinct, fun row member => .inl member⟩
  | cons w ws ih =>
    rw [List.foldlM_cons, except_bind_ok] at run
    rcases run with ⟨next, first, rest⟩
    rcases addWord_ok.mp first with ⟨-, rfl⟩ | ⟨new, sb, looked, rfl⟩
    · exact ih rest distinct
    · have grown : ((result ++ [memRow pid w ⟨sb, memPath pid, 0⟩]).map (·.desc.name)).Nodup := by
        rw [List.map_append]
        refine List.nodup_append.mpr ⟨distinct, List.nodup_singleton _, ?_⟩
        rintro old listed name last rfl
        have same : old = w := List.mem_singleton.mp last
        exact new (same ▸ listed)
      rcases ih rest grown with ⟨all, shape⟩
      refine ⟨all, fun row member => ?_⟩
      rcases shape row member with before | mem
      · rcases List.mem_append.mp before with old | last
        · exact .inl old
        · exact .inr ⟨w, sb, looked, List.mem_singleton.mp last⟩
      · exact .inr mem

theorem getMem_distinct (run : getMem pid o = .ok rows) : (rows.map (·.desc.name)).Nodup ∧
    ∀ row ∈ rows, ∃ word sb, IsRowOf pid o word sb row := by
  unfold getMem at run
  split at run
  · simpa using addWords_distinct run (List.nodup_nil)
  · cases run
    exact ⟨List.nodup_nil, nofun⟩

end Rows

section Files

variable {pid : String} {o : Outcome} {rows : List Row} {mappings : List Mapping}

/-- The row for a mapped file. -/
def Mapping.described (m : Mapping) : Option FileDescriptor :=
  match m.backing with
  | .file _ deleted stat => some {
      fd := if deleted then "del" else "mem"
      type := getType stat
      node := toString stat.ino
      name := String.ofList m.backing.column }
  | _ => none

/-- There is one row for each mapped path, with the file's own attributes. -/
structure ShowsFiles (rows : List Row) (mappings : List Mapping) : Prop where
  distinct : (rows.map (·.desc.name)).Nodup
  complete : ∀ m ∈ mappings, ∀ name, m.pathname = some name → name ∈ rows.map (·.desc.name)
  described : ∀ row ∈ rows, ∃ m ∈ mappings, m.described = some row.desc

/-- What `get_mem` makes of the lines is right: every mapped path is one word, words with a
slash in labels are mapped paths, and `maps` has the type and the inode number of the file. -/
structure WordForWord (o : Outcome) (mappings : List Mapping) : Prop where
  paths : ∀ m ∈ mappings, ∀ path deleted stat, m.backing = .file path deleted stat →
    deleted = false ∧ ∀ c ∈ path, isspace c = false
  labels : ∀ m ∈ mappings, ∀ name, m.backing = .label name → ∀ word ∈ runs isspace name,
    '/' ∈ word → ∃ m' ∈ mappings, m'.pathname = some (String.ofList word)
  files : ∀ m ∈ mappings, ∀ name, m.pathname = some name → ∃ sb, o.mapsStat name = some sb ∧
    ∃ m' ∈ mappings, ∃ path deleted stat, m'.backing = .file path deleted stat ∧
      m'.pathname = some name ∧ getType stat = getType sb ∧ stat.ino = sb.ino

theorem mem_mappedWords (content : o.maps = some (mappings.map Mapping.line)) {word : String} :
    word ∈ mappedWords o ↔
      '/' ∈ word.toList ∧ ∃ m ∈ mappings, word.toList ∈ runs isspace m.backing.column := by
  have inLine (m : Mapping) : word ∈ words m.line ↔ word.toList ∈ runs isspace m.text := by
    rw [words, Mapping.line, String.toList_ofList, List.mem_map]
    constructor
    · rintro ⟨run, member, rfl⟩
      rwa [String.toList_ofList]
    · intro member
      exact ⟨_, member, String.ofList_toList⟩
  rw [mappedWords, content, Option.getD_some, List.mem_filter, decide_eq_true_eq, and_comm,
    List.mem_flatMap]
  refine and_congr_right fun slash => ?_
  simp only [List.mem_map, exists_exists_and_eq_and, inLine, Mapping.mem_runs_text slash]

theorem pathname_eq_some {m : Mapping} {name : String} : m.pathname = some name ↔
    (∃ path deleted stat, m.backing = .file path deleted stat) ∧
      name = String.ofList m.backing.column := by
  unfold Mapping.pathname
  cases m.backing with
  | file path deleted stat => simp [eq_comm]
  | _ => simp

theorem described_eq_some {m : Mapping} {desc : FileDescriptor} : m.described = some desc ↔
    ∃ path deleted stat, m.backing = .file path deleted stat ∧ desc =
      ⟨if deleted then "del" else "mem", getType stat, toString stat.ino,
        String.ofList m.backing.column⟩ := by
  unfold Mapping.described
  cases m.backing with
  | file path deleted stat =>
    constructor
    · rintro ⟨⟩
      exact ⟨path, deleted, stat, rfl, rfl⟩
    · rintro ⟨_, _, _, ⟨⟩, rfl⟩
      rfl
  | _ => simp

/-- A path is one word, or it is no word of the line. -/
theorem paths_of_mapped (content : o.maps = some (mappings.map Mapping.line)) {m : Mapping}
    {path : List Char} {deleted : Bool} {stat : Stat} (file : m.backing = .file path deleted stat)
    (word : String.ofList m.backing.column ∈ mappedWords o) :
    deleted = false ∧ ∀ c ∈ path, isspace c = false := by
  rcases (mem_mappedWords content).mp word with ⟨-, m', -, run⟩
  rw [String.toList_ofList] at run
  have inner (c : Char) (inside : c ∈ m.backing.column) : isspace c = false :=
    not_sep_of_mem_runs run inside
  rw [file, Backing.column] at inner
  refine ⟨?_, fun c inside => inner c (List.mem_append_left _ inside)⟩
  cases deleted with
  | false => rfl
  | true => exact absurd (inner ' ' (List.mem_append_right _ (by simp))) (by decide)

/-- The words with a slash are the mapped paths. -/
theorem mem_mappedWords_iff (content : o.maps = some (mappings.map Mapping.line))
    (plain : WordForWord o mappings) {word : String} :
    word ∈ mappedWords o ↔ ∃ m ∈ mappings, m.pathname = some word := by
  rw [mem_mappedWords content]
  have column {m : Mapping} {path : List Char} {deleted : Bool} {stat : Stat} (listed : m ∈ mappings)
      (file : m.backing = .file path deleted stat) :
      '/' ∈ m.backing.column ∧ runs isspace m.backing.column = [m.backing.column] := by
    rcases plain.paths m listed path deleted stat file with ⟨rfl, inner⟩
    have rooted := m.wellFormed
    rw [file] at rooted ⊢
    have slash : '/' ∈ path := List.mem_of_head? rooted
    rw [Backing.column, if_neg Bool.false_ne_true, List.append_nil]
    exact ⟨slash, runs_word (List.ne_nil_of_mem slash) inner⟩
  constructor
  · rintro ⟨slash, m, listed, run⟩
    cases kind : m.backing with
    | anonymous =>
      rw [kind] at run
      cases run
    | label name =>
      rw [kind] at run
      have mapped := plain.labels m listed name kind word.toList run slash
      rwa [String.ofList_toList] at mapped
    | file path deleted stat =>
      rw [(column listed kind).2, List.mem_singleton] at run
      refine ⟨m, listed, pathname_eq_some.mpr ⟨⟨path, deleted, stat, kind⟩, ?_⟩⟩
      rw [← run, String.ofList_toList]
  · rintro ⟨m, listed, named⟩
    rcases pathname_eq_some.mp named with ⟨⟨path, deleted, stat, file⟩, rfl⟩
    rcases column listed file with ⟨slash, one⟩
    rw [String.toList_ofList]
    exact ⟨slash, m, listed, by rw [one]; exact List.mem_singleton_self _⟩

/-- Right rows come from lines that are right word for word. -/
theorem WordForWord.of_shows (accessible : o.mapsAccess)
    (content : o.maps = some (mappings.map Mapping.line)) (run : getMem pid o = .ok rows)
    (shows : ShowsFiles rows mappings) : WordForWord o mappings := by
  have names (w : String) : w ∈ rows.map (·.desc.name) ↔ w ∈ mappedWords o := by
    rw [(getMem_rows run).2, and_iff_right accessible]
  have described (w : String) (word : w ∈ mappedWords o) : ∃ sb, o.mapsStat w = some sb ∧
      ∃ m ∈ mappings, ∃ path deleted stat, m.backing = .file path deleted stat ∧
        m.pathname = some w ∧ getType stat = getType sb ∧ stat.ino = sb.ino := by
    rcases List.mem_map.mp ((names w).mpr word) with ⟨row, listed, rfl⟩
    rcases (getMem_distinct run).2 row listed with ⟨w, sb, looked, rfl⟩
    rcases shows.described _ listed with ⟨m, mapped, same⟩
    rcases described_eq_some.mp same with ⟨path, deleted, stat, file, desc⟩
    rcases FileDescriptor.mk.inj desc with ⟨-, type, node, name⟩
    refine ⟨sb, looked, m, mapped, path, deleted, stat, file,
      pathname_eq_some.mpr ⟨⟨path, deleted, stat, file⟩, name⟩, type.symm, ?_⟩
    exact (toString_nat_inj.mp node).symm
  have mapped (m : Mapping) (listed : m ∈ mappings) (name : String) (named : m.pathname = some name) :
      name ∈ mappedWords o := (names name).mp (shows.complete m listed name named)
  refine ⟨fun m listed path deleted stat file => ?_, fun m listed name label word run slash => ?_,
    fun m listed name named => described name (mapped m listed name named)⟩
  · refine paths_of_mapped content file (mapped m listed _ ?_)
    exact pathname_eq_some.mpr ⟨⟨path, deleted, stat, file⟩, rfl⟩
  · have listedWord : String.ofList word ∈ mappedWords o := by
      rw [mem_mappedWords content, String.toList_ofList]
      exact ⟨slash, m, listed, by rwa [label]⟩
    rcases described _ listedWord with ⟨-, -, m', listed', -, -, -, -, named, -⟩
    exact ⟨m', listed', named⟩

/-- The rows are right if and only if the lines are right word for word. -/
theorem getMem_shows_iff (accessible : o.mapsAccess)
    (content : o.maps = some (mappings.map Mapping.line)) :
    (∃ rows, getMem pid o = .ok rows ∧ ShowsFiles rows mappings) ↔ WordForWord o mappings := by
  constructor
  · rintro ⟨rows, run, shows⟩
    exact .of_shows accessible content run shows
  · intro plain
    have steady : o.MapsSteady := by
      intro _ word listed
      rcases (mem_mappedWords_iff content plain).mp listed with ⟨m, mapped, named⟩
      rcases plain.files m mapped word named with ⟨sb, looked, -⟩
      rw [looked]
      rfl
    rcases getMem_ok.mpr steady with ⟨rows, run⟩
    have names (w : String) : w ∈ rows.map (·.desc.name) ↔ w ∈ mappedWords o := by
      rw [(getMem_rows run).2, and_iff_right accessible]
    refine ⟨rows, run, (getMem_distinct run).1, fun m mapped name named => ?_, fun row listed => ?_⟩
    · exact (names name).mpr ((mem_mappedWords_iff content plain).mpr ⟨m, mapped, named⟩)
    · have word := (names _).mp (List.mem_map_of_mem listed)
      rcases (getMem_distinct run).2 row listed with ⟨w, sb, looked, rfl⟩
      rcases (mem_mappedWords_iff content plain).mp word with ⟨m, mapped, named⟩
      rcases plain.files m mapped w named with
        ⟨sb', looked', m', mapped', path, deleted, stat, file, named', type, node⟩
      rw [looked, Option.some.injEq] at looked'
      subst looked'
      rcases plain.paths m' mapped' path deleted stat file with ⟨rfl, -⟩
      refine ⟨m', mapped', described_eq_some.mpr ⟨path, false, stat, file, ?_⟩⟩
      rw [← (pathname_eq_some.mp named').2, type, node]
      rfl

end Files

section Samples

/-- `cat`, with the inode number 131. -/
def catMapping : Mapping where
  columns := ["00400000-0040b000".toList, "r-xp".toList, "00000000".toList, "08:01".toList,
    "131".toList]
  gap := 14
  backing := .file "/bin/cat".toList false ⟨0o100755, 131⟩
  five := rfl
  plain := by simp [isspace]
  wellFormed := rfl

/-- A process with that line in `maps`, which is itself the file with number `ino`. -/
def running (ino : Nat) : Outcome :=
  { closing with
    maps := some ([catMapping].map Mapping.line)
    mapsStat := fun _ => some ⟨0o100444, ino⟩ }

theorem getMem_shows_iff_cat :
    ∃ rows, getMem "42" (running 131) = .ok rows ∧ ShowsFiles rows [catMapping] := by
  refine (getMem_shows_iff rfl rfl).mpr ⟨?_, ?_, ?_⟩
  · intro m listed path deleted stat file
    cases List.mem_singleton.mp listed
    cases file
    exact ⟨rfl, by simp [isspace]⟩
  · intro m listed name label
    cases List.mem_singleton.mp listed
    cases label
  · intro m listed name named
    cases List.mem_singleton.mp listed
    exact ⟨_, rfl, catMapping, listed, _, _, _, rfl, named, by decide, rfl⟩

/-- The row for `cat` shows the inode number of `maps`. -/
theorem getMem_shows_maps : (∃ rows, getMem "42" (running 4026531840) = .ok rows) ∧
    (∀ rows, getMem "42" (running 4026531840) = .ok rows → ∀ row ∈ rows,
      row.desc.node = toString 4026531840) ∧
    ¬ ∃ rows, getMem "42" (running 4026531840) = .ok rows ∧ ShowsFiles rows [catMapping] := by
  refine ⟨getMem_ok.mpr fun _ _ _ => rfl, fun rows run row listed => ?_, ?_⟩
  · rcases (getMem_distinct run).2 row listed with ⟨word, sb, looked, rfl⟩
    cases looked
    rfl
  · rintro ⟨rows, run, shows⟩
    have plain := WordForWord.of_shows rfl rfl run shows
    rcases plain.files catMapping (List.mem_singleton_self _) _ rfl with
      ⟨sb, looked, m, listed, path, deleted, stat, file, -, -, node⟩
    cases looked
    cases List.mem_singleton.mp listed
    cases file
    exact absurd node (by decide)

end Samples

section Words

variable {pid word : String} {o : Outcome} {i : Nat} {result rows : List Row}

end Words

end UnixProgramming.Lsof
