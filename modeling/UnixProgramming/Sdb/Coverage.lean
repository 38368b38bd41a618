import UnixProgramming.Sdb.Elf
import UnixProgramming.Sdb.Listing
import UnixProgramming.Sdb.Tiling

/-!
# What the sweep covers

`get_orig_code` starts at the entry point and goes on for the size of `.text`. It records
the section if the entry point is its first address.
-/

namespace UnixProgramming.Sdb

open Memory Stateful

variable {κ : Type}

section Text

/-- `sh_addr` of section `i`. -/
def textAddr (file : List Byte) (i : Nat) : Addr :=
  BitVec.ofNat 64 (fileField file (shoff file + (64 * i + 16)) 8)

/-- A fixed-address program, in user space, with the entry point in section `i`, its `.text`. -/
structure Executable (junk : Uninit) (file : List Byte) (i : Nat) : Prop where
  magic : Magic file
  inBounds : HeadersInBounds junk file
  text : TextSection file i
  last : LastText junk file i
  entry : (textAddr file i).toNat ≤ (entryOf file).toNat ∧
    (entryOf file).toNat < (textAddr file i).toNat + (textSize file i).toNat
  user : (textAddr file i).toNat + (textSize file i).toNat ≤ 2 ^ 47

/-- The decoder can be opened, and each call decodes an instruction of 1 to 15 bytes. -/
structure Capstone (host : Host κ) : Prop where
  opened : host.csOpen = true
  decodes : ∀ mem addr, ∃ insn, host.csDisasm (codeAt mem addr) addr = some insn ∧
    1 ≤ insn.size ∧ insn.size ≤ 15

/-- The recorded instructions start in the section and cover it. -/
structure CoversText (file : List Byte) (i : Nat) (ins : List Instruction1) : Prop where
  inside : ∀ j ∈ ins, (textAddr file i).toNat ≤ j.addr.toNat ∧
    j.addr.toNat < (textAddr file i).toNat + (textSize file i).toNat
  covered : ∀ x, (textAddr file i).toNat ≤ x → x < (textAddr file i).toNat + (textSize file i).toNat →
    ∃ j ∈ ins, j.addr.toNat ≤ x ∧ x < j.addr.toNat + j.size

variable {host : Host κ} {file : List Byte} {i : Nat}

theorem Skipdata.capstone (skipdata : Skipdata host) : Capstone host where
  opened := skipdata.opened
  decodes mem addr := by
    rcases skipdata.decodes _ addr (length_codeAt mem addr) with ⟨insn, found, low, high, -⟩
    exact ⟨insn, found, low, high⟩

/-- Decoding goes through the addresses without a gap. -/
theorem Decodes.covers {mem : Addr → Option Byte} {stop addr : Addr} {new : List Instruction1}
    (h : Decodes host mem stop addr new) (capstone : Capstone host) (low : stop.toNat + 15 < 2 ^ 64) :
    (∀ j ∈ new, addr.toNat ≤ j.addr.toNat ∧ j.addr.toNat < stop.toNat) ∧
    ∀ x, addr.toNat ≤ x → x < stop.toNat → ∃ j ∈ new, j.addr.toNat ≤ x ∧ x < j.addr.toNat + j.size := by
  induction h with
  | done ended =>
    rw [BitVec.lt_def] at ended
    exact ⟨fun j member => (by cases member), fun x above below => absurd below (by omega)⟩
  | @undecodable addr _ none =>
    obtain ⟨insn, found, -⟩ := capstone.decodes mem addr
    cases none.symm.trans found
  | @next addr insn rest more found _ ih =>
    obtain ⟨insn', found', some_byte, short⟩ := capstone.decodes mem addr
    obtain rfl := Option.some.inj (found.symm.trans found')
    rw [BitVec.lt_def] at more
    have after : (addr + BitVec.ofNat 64 insn.size).toNat = addr.toNat + insn.size := by
      rw [BitVec.toNat_add, BitVec.toNat_ofNat]
      omega
    rw [after] at ih
    refine ⟨fun j member => ?_, fun x above below => ?_⟩
    · obtain rfl | later := List.mem_cons.mp member
      · exact ⟨le_rfl, more⟩
      · have bounds := ih.1 j later
        omega
    · by_cases here : x < addr.toNat + insn.size
      · exact ⟨insn.record addr, List.mem_cons_self, above, here⟩
      · obtain ⟨j, member, covers⟩ := ih.2 x (by omega) below
        exact ⟨j, List.mem_cons_of_mem _ member, covers⟩

/-- New instructions that go from inside the section to behind its end complete old ones. -/
theorem coversText_append (old : List Instruction1) {new : List Instruction1} {first stop : Nat}
    (above : (textAddr file i).toNat ≤ first)
    (below : first ≤ (textAddr file i).toNat + (textSize file i).toNat)
    (within : ∀ j ∈ new, first ≤ j.addr.toNat ∧ j.addr.toNat < stop)
    (gapless : ∀ x, first ≤ x → x < stop → ∃ j ∈ new, j.addr.toNat ≤ x ∧ x < j.addr.toNat + j.size)
    (behind : (textAddr file i).toNat + (textSize file i).toNat ≤ stop) :
    CoversText file i (old ++ new) ↔
      (∀ j ∈ old, (textAddr file i).toNat ≤ j.addr.toNat ∧
        j.addr.toNat < (textAddr file i).toNat + (textSize file i).toNat) ∧
      (∀ x, (textAddr file i).toNat ≤ x → x < first →
        ∃ j ∈ old, j.addr.toNat ≤ x ∧ x < j.addr.toNat + j.size) ∧
      ∀ j ∈ new, j.addr.toNat < (textAddr file i).toNat + (textSize file i).toNat := by
  constructor
  · rintro ⟨inside, covered⟩
    refine ⟨fun j older => inside j (List.mem_append_left _ older), fun x low high => ?_,
      fun j newer => (inside j (List.mem_append_right _ newer)).2⟩
    obtain ⟨j, member, covers⟩ := covered x low (by omega)
    obtain older | newer := List.mem_append.mp member
    · exact ⟨j, older, covers⟩
    · have late := (within j newer).1
      omega
  · rintro ⟨older, front, newer⟩
    refine ⟨fun j member => ?_, fun x low high => ?_⟩
    · obtain before | after := List.mem_append.mp member
      · exact older j before
      · have late := (within j after).1
        exact ⟨by omega, newer j after⟩
    · by_cases early : x < first
      · obtain ⟨j, member, covers⟩ := front x low early
        exact ⟨j, List.mem_append_left _ member, covers⟩
      · obtain ⟨j, member, covers⟩ := gapless x (by omega) (by omega)
        exact ⟨j, List.mem_append_right _ member, covers⟩

theorem sizeRead_eq (text : TextSection file i) (junk : Uninit) : sizeRead junk file i = textSize file i := by
  have header := text.inFile i (by simp)
  rw [sizeRead, tableField_eq text.offsets.1 (by omega), textSize]

variable {v w w' : World κ} {path : String}

/-- What `load` has found, and what it has kept. -/
theorem load_executable (idle : v.info.state = .noload) (opened : host.file path = some file)
    (exe : Executable host.uninit file i) (load : Step host (.load path) v w) :
    w.info.state = .loaded ∧ w.info.entry = entryOf file ∧ w.info.size = textSize file i ∧
      w.origInstructions = v.origInstructions := by
  obtain ⟨n, ok⟩ := load
  have long : ¬ file.length < 64 := Nat.not_lt.mpr exe.text.header
  obtain ⟨u, ok', loaded, assigned⟩ := load_done idle opened long (fun _ => exe.inBounds) n
  cases ok'.symm.trans ok
  obtain ⟨j, last, entry, size⟩ := assigned exe.magic.half i exe.last.named exe.last.numbered
  obtain rfl := last.unique exe.last
  refine ⟨loaded, entry, size.trans (sizeRead_eq exe.text _), ?_⟩
  obtain ⟨busy, -⟩ | ⟨-, info, l, -, -, rfl⟩ := load_ok ok
  · exact absurd idle busy
  · rfl

/-- `start` records the section if and only if what was recorded before lies in it and covers
it up to the entry point, and decoding does not get behind its end. The first `start` does
so if and only if the entry point is the first address of the section. -/
theorem coversText_iff (idle : v.info.state = .noload) (opened : host.file path = some file)
    (exe : Executable host.uninit file i) (capstone : Capstone host)
    (load : Step host (.load path) v w) (start : Step host .start w w') :
    (CoversText file i w'.origInstructions ↔
      (∀ j ∈ v.origInstructions, (textAddr file i).toNat ≤ j.addr.toNat ∧
        j.addr.toNat < (textAddr file i).toNat + (textSize file i).toNat) ∧
      (∀ x, (textAddr file i).toNat ≤ x → x < (entryOf file).toNat →
        ∃ j ∈ v.origInstructions, j.addr.toNat ≤ x ∧ x < j.addr.toNat + j.size) ∧
      ∀ prog new, host.exec w.info.path = some prog →
        Decodes host prog.image.mem (entryOf file + textSize file i) (entryOf file) new →
        ∀ j ∈ new, j.addr.toNat < (textAddr file i).toNat + (textSize file i).toNat) ∧
    (v.origInstructions = [] →
      (CoversText file i w'.origInstructions ↔ entryOf file = textAddr file i)) := by
  obtain ⟨loaded, entry, size, kept⟩ := load_executable idle opened exe load
  obtain ⟨n, ok⟩ := start
  obtain ⟨new, own, path_eq, entry_eq, size_eq⟩ := start_own loaded ok
  obtain ⟨listed, prog, found, decodes, -⟩ := own
  have decodes := decodes capstone.opened
  rw [path_eq] at found
  rw [entry_eq, size_eq, entry, size] at decodes
  rw [kept] at listed
  obtain ⟨above, below⟩ := exe.entry
  have user := exe.user
  have stop : (entryOf file + textSize file i).toNat = (entryOf file).toNat + (textSize file i).toNat := by
    rw [BitVec.toNat_add]
    omega
  obtain ⟨within, gapless⟩ := decodes.covers capstone (by omega)
  rw [stop] at within gapless
  have general := coversText_append v.origInstructions above below.le within gapless
    (by omega)
  rw [← listed] at general
  constructor
  · rw [general]
    refine and_congr_right fun _ => and_congr_right fun _ => ⟨fun ends prog' new' found' decodes' => ?_,
      fun ends => ends prog new found decodes⟩
    obtain rfl := Option.some.inj (found.symm.trans found')
    obtain rfl := decodes.unique decodes'
    exact ends
  · intro none
    rw [general, none]
    constructor
    · rintro ⟨-, front, -⟩
      by_contra apart
      have later : (textAddr file i).toNat < (entryOf file).toNat :=
        Nat.lt_of_le_of_ne above fun same => apart (BitVec.eq_of_toNat_eq same.symm)
      obtain ⟨j, member, -⟩ := front _ le_rfl later
      cases member
    · intro same
      rw [same] at within ⊢
      exact ⟨by simp, fun x low high => absurd high (by omega), fun j member => (within j member).2⟩

end Text

section Samples

open Sample

/-- `mov eax, 60` and `syscall` in a `.text` at 0x401ff9, with a choice of the entry point. -/
def enteredAt (entry : Nat) : List Byte :=
  [0x7f, 0x45, 0x4c, 0x46, 0x02, 0x01, 0x01] ++ littleEndian 0 9 ++
    littleEndian 2 2 ++ littleEndian 0x3e 2 ++ littleEndian 1 4 ++
    littleEndian entry 8 ++ littleEndian 0 8 ++ littleEndian 64 8 ++
    littleEndian 0 4 ++ littleEndian 64 2 ++ littleEndian 0 4 ++ littleEndian 64 2 ++
    littleEndian 3 2 ++ littleEndian 2 2 ++
    sectionHeader 0 0 0 ++
    (littleEndian 1 4 ++ littleEndian 0 12 ++ littleEndian 0x401ff9 8 ++
      littleEndian (256 + names.length) 8 ++ littleEndian leave.length 8 ++ littleEndian 0 24) ++
    sectionHeader 7 256 names.length ++ names ++ leave

def entryHost (entry : Nat) : Host Unit := { host leave with file := fun _ => some (enteredAt entry) }

theorem capstone_entryHost (entry : Nat) : Capstone (entryHost entry) :=
  Skipdata.capstone ⟨rfl, (skipdata leave).decodes⟩

theorem executable_enteredAt {entry : Nat} (inside : entry = 0x401ff9 ∨ entry = 0x401ffe) :
    Executable (entryHost entry).uninit (enteredAt entry) 1 := by
  have others (file : List Byte) (three : shnum file = 3)
      (two : compareName (entryHost entry).uninit file 2 ≠ some true) :
      ∀ k, 1 < k → k < shnum file → compareName (entryHost entry).uninit file k ≠ some true := by
    intro k above less
    obtain rfl : k = 2 := by omega
    exact two
  obtain rfl | rfl := inside
  all_goals
    exact ⟨by decide +kernel, headersInBounds_iff.mpr ⟨by decide +kernel, by decide +kernel⟩,
      .of_bytes (by decide +kernel) (by decide +kernel) (by decide +kernel) (by decide +kernel)
        (by decide +kernel),
      ⟨by decide +kernel, by decide +kernel, others _ (by decide +kernel) (by decide +kernel)⟩,
      by decide +kernel, by decide +kernel⟩

theorem load_start_entryHost (entry : Nat) (addrs : List Addr)
    (ended : ((session (entryHost entry) 40 [.load "leave"]).bind fun v =>
      (next? (entryHost entry) 40 .start v).map fun w => w.origInstructions.map (·.addr)) = some addrs) :
    ∃ w w', Step (entryHost entry) (.load "leave") (World.init (entryHost entry)) w ∧
      Step (entryHost entry) .start w w' ∧ w'.origInstructions.map (·.addr) = addrs := by
  obtain ⟨v, first, rest⟩ := Option.bind_eq_some_iff.mp ended
  obtain ⟨w, begun, recorded⟩ := Option.map_eq_some_iff.mp rest
  have run := run_of_session first
  cases run with
  | cons step more =>
    cases more
    exact ⟨v, w, step, ⟨40, exec_of_next? begun⟩, recorded⟩

theorem coversText_iff_leave : ∃ w w',
    Step (entryHost 0x401ff9) (.load "leave") (World.init (entryHost 0x401ff9)) w ∧
      Step (entryHost 0x401ff9) .start w w' ∧ CoversText (enteredAt 0x401ff9) 1 w'.origInstructions := by
  obtain ⟨w, w', load, start, -⟩ := load_start_entryHost 0x401ff9 [0x401ff9, 0x401ffe] (by decide +kernel)
  obtain ⟨-, first⟩ := coversText_iff rfl rfl (executable_enteredAt (.inl rfl))
    (capstone_entryHost _) load start
  exact ⟨w, w', load, start, (first rfl).mpr (by decide +kernel)⟩

/-- With the entry point at the second instruction, the first one is missing, and what lies
behind the section is recorded. -/
theorem sweep_leaves_text : Executable (entryHost 0x401ffe).uninit (enteredAt 0x401ffe) 1 ∧
    Capstone (entryHost 0x401ffe) ∧
    ∃ w w', Step (entryHost 0x401ffe) (.load "leave") (World.init (entryHost 0x401ffe)) w ∧
      Step (entryHost 0x401ffe) .start w w' ∧
      ¬ CoversText (enteredAt 0x401ffe) 1 w'.origInstructions := by
  obtain ⟨w, w', load, start, addrs⟩ := load_start_entryHost 0x401ffe
    [0x401ffe, 0x402000, 0x402001, 0x402002, 0x402003, 0x402004] (by decide +kernel)
  refine ⟨executable_enteredAt (.inr rfl), capstone_entryHost _, w, w', load, start, fun covers => ?_⟩
  have data : (0x402000 : Addr) ∈ w'.origInstructions.map (·.addr) := by
    rw [addrs]
    decide
  obtain ⟨i, member, here⟩ := List.mem_map.mp data
  have inside := (covers.inside i member).2
  rw [here] at inside
  exact absurd inside (by decide +kernel)

end Samples

end UnixProgramming.Sdb
