import UnixProgramming.Sdb.Sample
import UnixProgramming.Sdb.Survival

/-!
# What `elf_read` accepts, and what it touches

The section headers and the section names are found through numbers in the file. `elf_read`
looks at half of the magic number and checks none of the others.
-/

namespace UnixProgramming.Sdb

open Memory Stateful

variable {κ : Type}

section Fields

/-- A number in the file. -/
def fileField (file : List Byte) (off n : Nat) : Nat := field (fun k => file.getD k 0) off n

def shoff (file : List Byte) : Nat := fileField file 40 8

def shnum (file : List Byte) : Nat := fileField file 60 2

def shstrndx (file : List Byte) : Nat := fileField file 62 2

variable (junk : Uninit) (file : List Byte)

/-- Where the section headers are read from. -/
def tableStart : Nat := if shoff file < 2 ^ 63 then shoff file else 64

/-- A number in section header `i`, as `elf_read` has it. -/
def tableField (i off n : Nat) : Nat :=
  field (fun k => file.getD (tableStart file + k) (junk.heap k)) (64 * i + off) n

/-- The size of `shstrtab`. -/
def strSize : Nat := tableField junk file (shstrndx file) 32 8

/-- Where `shstrtab` is read from. -/
def strStart : Nat :=
  if tableField junk file (shstrndx file) 24 8 < 2 ^ 63 then tableField junk file (shstrndx file) 24 8
  else 0

def strtab (k : Nat) : Option Byte :=
  if k < strSize junk file then some (file.getD (strStart junk file + k) (junk.stack k)) else none

/-- The comparison of the name of section `i` with `.text`. -/
def compareName (i : Nat) : Option Bool :=
  matchesName (strtab junk file) (tableField junk file i 0 4) textName

/-- `info.size` for section `i`. -/
def sizeRead (i : Nat) : BitVec 64 := BitVec.ofNat 64 (tableField junk file i 32 8)

def entryOf : Addr := BitVec.ofNat 64 (fileField file 24 8)

variable {junk file}

theorem headersInBounds_iff : HeadersInBounds junk file ↔
    shstrndx file < shnum file ∧ ∀ i < shnum file, (compareName junk file i).isSome := Iff.rfl

theorem readHeaders_eq (info : ProgInfo) : readHeaders junk file info =
    if shnum file ≤ shstrndx file then none
    else findText (fun k => file.getD (tableStart file + k) (junk.heap k)) (strtab junk file)
      (entryOf file) info 0 (shnum file) := rfl

/-- The last section whose name compares equal. -/
structure LastText (junk : Uninit) (file : List Byte) (j : Nat) : Prop where
  numbered : j < shnum file
  named : compareName junk file j = some true
  last : ∀ k, j < k → k < shnum file → compareName junk file k ≠ some true

theorem LastText.unique {j j' : Nat} (h : LastText junk file j) (h' : LastText junk file j') : j = j' := by
  obtain before | rfl | after := Nat.lt_trichotomy j j'
  · exact absurd h'.named (h.last j' before h'.numbered)
  · rfl
  · exact absurd h.named (h'.last j after h.numbered)

/-- The loop keeps the size from the last section whose name compares equal. -/
theorem findText_some {table : Nat → Byte} {strings : Nat → Option Byte} {entry : Addr}
    {info info' : ProgInfo} {i n : Nat} (found : findText table strings entry info i n = some info') :
    (∃ j, i ≤ j ∧ j < i + n ∧ matchesName strings (field table (64 * j) 4) textName = some true ∧
      (∀ k, j < k → k < i + n → matchesName strings (field table (64 * k) 4) textName ≠ some true) ∧
      info' = { info with
        entry := entry, size := BitVec.ofNat 64 (field table (64 * j + 32) 8) }) ∨
    (∀ j, i ≤ j → j < i + n → matchesName strings (field table (64 * j) 4) textName ≠ some true) ∧
      info' = info := by
  induction n generalizing i info with
  | zero => exact .inr ⟨fun j low high => absurd high (by omega), (Option.some.inj found).symm⟩
  | succ n ih =>
    rw [findText] at found
    cases named : matchesName strings (field table (64 * i) 4) textName with
    | none => simp [named] at found
    | some isText =>
      have later {j : Nat} (low : i ≤ j) : j = i ∨ i + 1 ≤ j := by omega
      cases isText with
      | true =>
        simp only [named] at found
        obtain ⟨j, low, high, hit, last, rfl⟩ | ⟨none, rfl⟩ := ih found
        · exact .inl ⟨j, by omega, by omega, hit, fun k above below => last k above (by omega), rfl⟩
        · exact .inl ⟨i, le_rfl, by omega, named, fun k above below => none k (by omega) (by omega), rfl⟩
      | false =>
        simp only [named] at found
        obtain ⟨j, low, high, hit, last, rfl⟩ | ⟨none, rfl⟩ := ih found
        · exact .inl ⟨j, by omega, by omega, hit, fun k above below => last k above (by omega), rfl⟩
        · refine .inr ⟨fun j low high => ?_, rfl⟩
          obtain rfl | above := later low
          · simp [named]
          · exact none j above (by omega)

theorem readHeaders_some {info info' : ProgInfo} (found : readHeaders junk file info = some info') :
    (∃ j, LastText junk file j ∧
      info' = { info with entry := entryOf file, size := sizeRead junk file j }) ∨
    (∀ j < shnum file, compareName junk file j ≠ some true) ∧ info' = info := by
  rw [readHeaders_eq] at found
  split at found
  · cases found
  · obtain ⟨j, -, high, hit, last, rfl⟩ | ⟨none, rfl⟩ := findText_some found
    · rw [Nat.zero_add] at high last
      exact .inl ⟨j, ⟨high, hit, last⟩, rfl⟩
    · exact .inr ⟨fun j high => none j (Nat.zero_le _) (by omega), rfl⟩

theorem matchesName_iff {strings : Nat → Option Byte} {start : Nat} {name : List Byte} :
    matchesName strings start name = some true ↔
      ∀ k b, name[k]? = some b → strings (start + k) = some b := by
  induction name generalizing start with
  | nil => simp [matchesName]
  | cons b name ih =>
    rw [matchesName]
    constructor
    · intro same k b' at_k
      cases found : strings start with
      | none => simp [found] at same
      | some c =>
        simp only [found] at same
        split at same
        · next equal =>
          cases k with
          | zero =>
            obtain rfl : b = b' := by simpa using at_k
            rw [Nat.add_zero, found, equal]
          | succ k =>
            have later := ih.mp same k b' (by simpa using at_k)
            rwa [Nat.add_right_comm] at later
        · cases same
    · intro all
      have first := all 0 b rfl
      rw [Nat.add_zero] at first
      simp only [first, if_true]
      refine ih.mpr fun k b' at_k => ?_
      rw [Nat.add_assoc, Nat.add_comm 1]
      exact all (k + 1) b' at_k

/-- A number that is in the file is read from there. -/
theorem tableField_eq {i off n : Nat} (low : shoff file < 2 ^ 63)
    (inside : shoff file + (64 * i + off + n) ≤ file.length) :
    tableField junk file i off n = fileField file (shoff file + (64 * i + off)) n := by
  have start : tableStart file = shoff file := if_pos low
  unfold tableField fileField
  rw [start]
  generalize 64 * i + off = k at inside ⊢
  induction n generalizing k with
  | zero => rfl
  | succ n ih =>
    have here : shoff file + k < file.length := by omega
    have same (d : Byte) : file.getD (shoff file + k) d = file[shoff file + k] := by
      simp [List.getD, here]
    rw [field, field, ih (k + 1) (by omega), same, same, Nat.add_assoc]

end Fields

section Accepting

/-- The magic number. -/
def Magic (file : List Byte) : Prop := file.take 4 = [0x7f, 0x45, 0x4c, 0x46]

instance (file : List Byte) : Decidable (Magic file) :=
  inferInstanceAs (Decidable (file.take 4 = [0x7f, 0x45, 0x4c, 0x46]))

/-- Where the file has its section names. -/
def stringsAt (file : List Byte) : Nat := fileField file (shoff file + (64 * shstrndx file + 24)) 8

/-- Section `i` is named `.text`, and its header and name are in the file. Offsets in files
are signed numbers. -/
structure TextSection (file : List Byte) (i : Nat) : Prop where
  header : 64 ≤ file.length
  numbered : i < shnum file
  strings : shstrndx file < shnum file
  inFile : ∀ j ∈ [i, shstrndx file], shoff file + (64 * j + 64) ≤ file.length
  offsets : shoff file < 2 ^ 63 ∧ stringsAt file < 2 ^ 63
  named : ∀ k b, textName[k]? = some b →
    fileField file (shoff file + (64 * i + 0)) 4 + k <
      fileField file (shoff file + (64 * shstrndx file + 32)) 8 ∧
    file[stringsAt file + (fileField file (shoff file + (64 * i + 0)) 4 + k)]? = some b

/-- `sh_size` of section `i`. -/
def textSize (file : List Byte) (i : Nat) : BitVec 64 :=
  BitVec.ofNat 64 (fileField file (shoff file + (64 * i + 32)) 8)

variable {host : Host κ} {w : World κ} {path : String} {junk : Uninit} {file : List Byte} {i : Nat}

theorem TextSection.compareName (h : TextSection file i) : compareName junk file i = some true := by
  obtain ⟨low, stringsLow⟩ := h.offsets
  have header := h.inFile i (by simp)
  have strings := h.inFile (shstrndx file) (by simp)
  have start : strStart junk file = stringsAt file := by
    rw [strStart, tableField_eq low (by omega), ← stringsAt, if_pos stringsLow]
  have size : strSize junk file = fileField file (shoff file + (64 * shstrndx file + 32)) 8 :=
    tableField_eq low (by omega)
  have name : tableField junk file i 0 4 = fileField file (shoff file + (64 * i + 0)) 4 :=
    tableField_eq low (by omega)
  refine matchesName_iff.mpr fun k b at_k => ?_
  obtain ⟨inside, byte⟩ := h.named k b at_k
  rw [strtab, name, size, if_pos inside, start, List.getD, byte, Option.getD_some]

theorem Magic.half (h : Magic file) : file.getD 0 0 = 0x7f ∨ file.getD 1 0 = 0x45 := by
  left
  have first : (file.take 4)[0]? = some 0x7f := by rw [h]; rfl
  rw [List.getElem?_take_of_lt (by decide)] at first
  rw [List.getD, first, Option.getD_some]

theorem load_done (idle : w.info.state = .noload) (opened : host.file path = some file)
    (long : ¬ file.length < 64)
    (inside : file.getD 0 0 = 0x7f ∨ file.getD 1 0 = 0x45 → HeadersInBounds host.uninit file) (n : Nat) :
    ∃ w', exec host n (.load path) w = .ok () w' ∧ w'.info.state = .loaded ∧
      (file.getD 0 0 = 0x7f ∨ file.getD 1 0 = 0x45 → ∀ k, compareName host.uninit file k = some true →
        k < shnum file → ∃ j, LastText host.uninit file j ∧ w'.info.entry = entryOf file ∧
          w'.info.size = sizeRead host.uninit file j) := by
  have loaded {info : ProgInfo} (read : elfRead host path w = .ok info w) :
      ∃ l, exec host n (.load path) w =
        .ok () { w with info := { info with state := .loaded, path := path }, log := l } := by
    simp [exec, load, idle, read, stderr, emit]
  by_cases half : file.getD 0 0 = 0x7f ∨ file.getD 1 0 = 0x45
  swap
  · have read : elfRead host path w = .ok { ProgInfo.empty with
        pid := host.uninit.pid, entry := host.uninit.entry, size := host.uninit.size } w := by
      simp only [elfRead, opened, long, if_false]
      rw [if_neg half]
      rfl
    obtain ⟨l, ran⟩ := loaded read
    exact ⟨_, ran, rfl, fun yes => absurd yes half⟩
  have taken : (readHeaders host.uninit file { ProgInfo.empty with
      pid := host.uninit.pid, entry := host.uninit.entry, size := host.uninit.size }).isSome :=
    readHeaders_isSome.mpr (inside half)
  obtain ⟨info, found⟩ := Option.isSome_iff_exists.mp taken
  have read : elfRead host path w = .ok info w := by
    simp only [elfRead, opened, long, if_false]
    rw [if_pos half, found]
    rfl
  obtain ⟨l, ran⟩ := loaded read
  refine ⟨_, ran, rfl, fun _ k equal numbered => ?_⟩
  obtain ⟨j, last, rfl⟩ | ⟨none, -⟩ := readHeaders_some found
  · exact ⟨j, last, rfl, rfl⟩
  · exact absurd equal (none k numbered)

end Accepting

section Accesses

/-- What `elf_read` touches: `n` bytes from `off` on of a section header, the buffer of the
section names and what is read into it, and a name that is compared. -/
inductive Access where
  | header (i off n : Nat)
  | strings (size read : Nat)
  | name (start : Nat)

variable (junk : Uninit) (file : List Byte)

/-- The bytes of the section names that the file has. -/
def stringsRead : Nat := min (strSize junk file) (file.length - strStart junk file)

/-- The accesses of the loop over the section headers, from number `i` on. -/
def loopAccesses (i : Nat) : Nat → List Access
  | 0 => []
  | n + 1 => .header i 0 4 :: .name (tableField junk file i 0 4) ::
    match compareName junk file i with
    | none => []
    | some true => .header i 32 8 :: loopAccesses (i + 1) n
    | some false => loopAccesses (i + 1) n

/-- The accesses of `elf_read`, up to the first one outside its table. -/
def accesses : List Access :=
  if 64 ≤ file.length ∧ (file.getD 0 0 = 0x7f ∨ file.getD 1 0 = 0x45) then
    .header (shstrndx file) 24 8 ::
      if shnum file ≤ shstrndx file then []
      else .header (shstrndx file) 32 8 :: .strings (strSize junk file) (stringsRead junk file) ::
        loopAccesses junk file 0 (shnum file)
  else []

variable {junk file}

/-- What the accesses of the loop have in common, if names with it are compared to the end. -/
theorem forall_loopAccesses {P : Access → Prop} {i n : Nat}
    (compared : ∀ j, P (.name (tableField junk file j 0 4)) → (compareName junk file j).isSome) :
    (∀ a ∈ loopAccesses junk file i n, P a) ↔ ∀ j, i ≤ j → j < i + n →
      P (.header j 0 4) ∧ P (.name (tableField junk file j 0 4)) ∧
      (compareName junk file j = some true → P (.header j 32 8)) := by
  induction n generalizing i with
  | zero => exact iff_of_true (by simp [loopAccesses]) fun j low high => absurd high (by omega)
  | succ n ih =>
    rw [forall_sections_succ, loopAccesses, List.forall_mem_cons, List.forall_mem_cons]
    cases named : compareName junk file i with
    | none =>
      have bad : ¬ P (.name (tableField junk file i 0 4)) := by
        intro good
        have whole := compared i good
        rw [named] at whole
        cases whole
      exact iff_of_false (fun all => bad all.2.1) fun all => bad all.1.2.1
    | some isText =>
      cases isText with
      | true =>
        rw [List.forall_mem_cons, ih]
        constructor
        · rintro ⟨header, name, size, rest⟩
          exact ⟨⟨header, name, fun _ => size⟩, rest⟩
        · rintro ⟨⟨header, name, size⟩, rest⟩
          exact ⟨header, name, size rfl, rest⟩
      | false =>
        rw [ih]
        constructor
        · rintro ⟨header, name, rest⟩
          exact ⟨⟨header, name, fun text => by cases text⟩, rest⟩
        · rintro ⟨⟨header, name, -⟩, rest⟩
          exact ⟨header, name, rest⟩

/-- The access stays in its table. -/
def Access.InTable (junk : Uninit) (file : List Byte) : Access → Prop
  | .header i _ _ => i < shnum file
  | .strings _ _ => True
  | .name start => (matchesName (strtab junk file) start textName).isSome

/-- `elf_read` comes back if and only if its accesses stay in their tables. -/
theorem readHeaders_isSome_iff_inTable (info : ProgInfo)
    (taken : 64 ≤ file.length ∧ (file.getD 0 0 = 0x7f ∨ file.getD 1 0 = 0x45)) :
    (readHeaders junk file info).isSome ↔ ∀ a ∈ accesses junk file, a.InTable junk file := by
  rw [readHeaders_isSome, headersInBounds_iff, accesses, if_pos taken, List.forall_mem_cons]
  by_cases numbered : shnum file ≤ shstrndx file
  · exact iff_of_false (fun both => Nat.not_lt.mpr numbered both.1)
      fun all => Nat.not_lt.mpr numbered all.1
  rw [if_neg numbered, List.forall_mem_cons, List.forall_mem_cons,
    forall_loopAccesses fun j whole => whole]
  constructor
  · rintro ⟨below, names⟩
    refine ⟨below, below, trivial, fun j _ less => ?_⟩
    rw [Nat.zero_add] at less
    exact ⟨less, names j less, fun _ => less⟩
  · rintro ⟨below, -, -, sections⟩
    exact ⟨below, fun j less => (sections j (Nat.zero_le _) (by omega)).2.1⟩

end Accesses

section Samples

open Sample

/-- The bytes of the name can be checked one by one. -/
theorem TextSection.of_bytes {file : List Byte} {i : Nat} (header : 64 ≤ file.length)
    (numbered : i < shnum file ∧ shstrndx file < shnum file)
    (inFile : ∀ j ∈ [i, shstrndx file], shoff file + (64 * j + 64) ≤ file.length)
    (offsets : shoff file < 2 ^ 63 ∧ stringsAt file < 2 ^ 63)
    (bytes : ∀ k < 6, fileField file (shoff file + (64 * i + 0)) 4 + k <
      fileField file (shoff file + (64 * shstrndx file + 32)) 8 ∧
      file[stringsAt file + (fileField file (shoff file + (64 * i + 0)) 4 + k)]? = textName[k]?) :
    TextSection file i := by
  refine ⟨header, numbered.1, numbered.2, inFile, offsets, fun k b at_k => ?_⟩
  obtain ⟨short, -⟩ := List.getElem?_eq_some_iff.mp at_k
  exact ⟨(bytes k short).1, (bytes k short).2.trans at_k⟩

/-- A text of 64 letters. -/
def letters : List Byte := List.replicate 64 0x61

end Samples

end UnixProgramming.Sdb
