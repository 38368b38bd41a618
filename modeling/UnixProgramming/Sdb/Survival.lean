import UnixProgramming.Sdb.Fuel
import UnixProgramming.Sdb.Guard
import UnixProgramming.Sdb.Line
import UnixProgramming.Sdb.Sweep

/-!
# Lines that bring the debugger down

For every command the exact condition under which it comes back, and from these the
condition on a line of input.
-/

namespace UnixProgramming.Sdb

open Memory Transition Stateful Text

variable {κ : Type}

section Conditions

variable (host : Host κ) (w : World κ)

/-- `start` finds and starts the program, and the sweep over its code ends. -/
structure Startable (pid : Int) (prog : Program κ) : Prop where
  forked : host.fork w.forks = some pid
  found : host.exec w.info.path = some prog
  swept : host.csOpen = true →
    Sweeps host prog.image.mem (w.info.entry + w.info.size) w.info.entry

/-- `cont` can step `c` off the breakpoint in `bp_restore`, if it is there, and `c` stops
or ends after `PTRACE_CONT`. -/
def Continues (c : Child κ) : Prop :=
  ∃ t bp, Launch w c t bp ∧ ∃ n e, c.prog.resume n t = some e

/-- The file has a complete ELF header, `e_shstrndx` is the number of a section, and the
comparison of every section's name with `.text` stays in the string table. -/
def HeadersInBounds (junk : Uninit) (file : List Byte) : Prop :=
  let header k := file.getD k 0
  let shoff := field header 40 8
  let shnum := field header 60 2
  let shstrndx := field header 62 2
  let tableStart := if shoff < 2 ^ 63 then shoff else 64
  let table k := file.getD (tableStart + k) (junk.heap k)
  let strOffset := field table (64 * shstrndx + 24) 8
  let strSize := field table (64 * shstrndx + 32) 8
  let strStart := if strOffset < 2 ^ 63 then strOffset else 0
  let strtab k := if k < strSize then some (file.getD (strStart + k) (junk.stack k)) else none
  shstrndx < shnum ∧
    ∀ i < shnum, (matchesName strtab (field table (64 * i) 4) textName).isSome

/-- `elf_read` comes back from the file. -/
def Loadable (path : String) : Prop :=
  ∃ file, host.file path = some file ∧ 64 ≤ file.length ∧
    (file.getD 0 0 = 0x7f ∨ file.getD 1 0 = 0x45 → HeadersInBounds host.uninit file)

/-- The condition under which a command comes back. -/
def Command.Returns : Command → Prop
  | .break addr => w.info.state = .running → addr ∈ w.info.addrs ∨
      ∃ c, w.child = some c ∧ Readable c.tracee.mem addr
  | .cont => w.info.state = .running → ∃ c, w.child = some c ∧ Continues w c
  | .delete idx => ∀ bp, w.info.bpVec[bpIndex idx]? = some bp →
      ∃ c, w.child = some c ∧ Readable c.tracee.mem bp.addr
  | .get _ | .getregs | .set _ _ | .si => w.info.state = .running → w.child.isSome
  | .load path => w.info.state = .noload → Loadable host path
  | .run => (w.info.state = .running → ∃ c, w.child = some c ∧ Continues w c) ∧
      (w.info.state = .loaded → ∃ pid prog, Startable host w pid prog ∧
        Continues w ⟨pid, prog, prog.image, none⟩)
  | .start => w.info.state = .loaded → ∃ pid prog, Startable host w pid prog
  | .vmmap => w.info.state = .running →
      host.maps w.info.pid = none ∨ host.maps w.info.pid = some []
  | .exit => False
  | .disasm _ | .dump _ | .help | .list | .unknown => True

end Conditions

section Printing

theorem emit_succeeds (e : Effect) : Succeeds (emit (κ := κ) e) := .modify _

theorem stderr_succeeds (text : String) : Succeeds (stderr (κ := κ) text) := emit_succeeds _

end Printing

section Returning

variable {host : Host κ} {w w' : World κ} {cmd : Command} {c : Child κ}

theorem Inert.returns (inert : Inert host cmd w) : ∃ w', Step host cmd w w' := by
  obtain ⟨texts, ran⟩ := inert 0
  exact ⟨_, 0, ran⟩

/-- A property of `n + 1` sections from number `i` on. -/
theorem forall_sections_succ {i n : Nat} (P : Nat → Prop) :
    (∀ j, i ≤ j → j < i + (n + 1) → P j) ↔ P i ∧ ∀ j, i + 1 ≤ j → j < i + 1 + n → P j := by
  constructor
  · intro all
    exact ⟨all i (by omega) (by omega), fun j low high => all j (by omega) (by omega)⟩
  · rintro ⟨first, rest⟩ j low high
    obtain rfl | later := Nat.eq_or_lt_of_le low
    · exact first
    · exact rest j later (by omega)

theorem findText_isSome {table : Nat → Byte} {strtab : Nat → Option Byte} {entry : Addr}
    {info : ProgInfo} {i n : Nat} : (findText table strtab entry info i n).isSome ↔
      ∀ j, i ≤ j → j < i + n → (matchesName strtab (field table (64 * j) 4) textName).isSome := by
  induction n generalizing i info with
  | zero => exact iff_of_true rfl fun j low high => absurd high (by omega)
  | succ n ih =>
    rw [forall_sections_succ, findText]
    cases named : matchesName strtab (field table (64 * i) 4) textName with
    | none => simp
    | some isText => cases isText <;> simp [ih]

theorem readHeaders_isSome {junk : Uninit} {file : List Byte} {info : ProgInfo} :
    (readHeaders junk file info).isSome ↔ HeadersInBounds junk file := by
  simp only [readHeaders, HeadersInBounds]
  split
  · next short => exact iff_of_false Bool.false_ne_true fun both => Nat.not_lt.mpr short both.1
  · next long =>
    rw [findText_isSome]
    simp only [Nat.not_le.mp long, true_and, Nat.zero_le, true_imp_iff, Nat.zero_add]

theorem elfRead_returns_iff (path : String) :
    (∃ info w', elfRead host path w = .ok info w') ↔ Loadable host path := by
  cases opened : host.file path with
  | none => simp [elfRead, opened, stderr, emit, Loadable]
  | some file =>
    by_cases short : file.length < 64
    · simp [elfRead, opened, short, stderr, emit, Loadable]
    have loadable : Loadable host path ↔
        (file.getD 0 0 = 0x7f ∨ file.getD 1 0 = 0x45 → HeadersInBounds host.uninit file) := by
      constructor
      · rintro ⟨file', opened', -, bounds⟩
        obtain rfl := Option.some.inj (opened.symm.trans opened')
        exact bounds
      · exact fun bounds => ⟨file, opened, Nat.not_lt.mp short, bounds⟩
    rw [loadable]
    simp only [elfRead, opened, short, if_false]
    by_cases elf : file.getD 0 0 = 0x7f ∨ file.getD 1 0 = 0x45
    · rw [if_pos elf]
      simp only [elf, true_imp_iff]
      cases found : readHeaders host.uninit file { ProgInfo.empty with
          pid := host.uninit.pid, entry := host.uninit.entry, size := host.uninit.size } with
      | none =>
        refine iff_of_false ?_ fun inside => ?_
        · rintro ⟨info, w', ok⟩
          cases ok
        · rw [← readHeaders_isSome, found] at inside
          cases inside
      | some info =>
        refine iff_of_true ⟨info, w, rfl⟩ ?_
        rw [← readHeaders_isSome, found]
        rfl
    · rw [if_neg elf]
      exact iff_of_true ⟨_, w, rfl⟩ fun yes => absurd yes elf

theorem load_returns_iff (idle : w.info.state = .noload) (path : String) :
    (∃ w', Step host (.load path) w w') ↔ Loadable host path := by
  have reads (n : Nat) : (∃ w', exec host n (.load path) w = .ok () w') ↔
      ∃ info w', elfRead host path w = .ok info w' := by
    cases read : elfRead host path w with
    | error e v => simp [exec, load, idle, read]
    | ok info v => simp [exec, load, idle, read, stderr, emit]
  rw [← elfRead_returns_iff (w := w)]
  constructor
  · rintro ⟨w', n, ok⟩
    exact (reads n).mp ⟨w', ok⟩
  · intro read
    obtain ⟨w', ok⟩ := (reads 0).mpr read
    exact ⟨w', 0, ok⟩

theorem start_returns_iff (loaded : w.info.state = .loaded) :
    (∃ n w', start host n w = .ok () w') ↔ ∃ pid prog, Startable host w pid prog := by
  constructor
  · rintro ⟨n, w', ok⟩
    obtain ⟨pid, prog, l, forked, found, swept⟩ := start_sweeps loaded ok
    refine ⟨pid, prog, forked, found, fun opened => ?_⟩
    simp only [getOrigCode, bind_apply, get_apply, opened, if_true] at swept
    exact sweeps_of_returns _ _ _ _ _ _ _ swept
  · rintro ⟨pid, prog, forked, found, swept⟩
    obtain ⟨l, begun⟩ := start_eq loaded forked found
    by_cases opened : host.csOpen = true
    · obtain ⟨n, w', swept⟩ := sweep_returns_of_sweeps host
        { w.info with state := .running, pid := pid } w.bpRestore pid prog prog.image (w.forks + 1)
        (swept opened) w.origInstructions l
      refine ⟨n, w', (begun n).trans ?_⟩
      simp only [getOrigCode, bind_apply, get_apply, opened, if_true]
      exact swept
    · have succeeds : Succeeds (getOrigCode host 0) := .bind .get fun v => by
        rw [if_neg opened]
        exact stderr_succeeds _
      obtain ⟨_, w', ran⟩ := succeeds _
      exact ⟨0, w', (begun 0).trans ran⟩

theorem Continues.congr {w₁ : World κ} (goes : Continues w c) (same : w₁.bpRestore = w.bpRestore) :
    Continues w₁ c := by
  obtain ⟨t, bp, launch, answer⟩ := goes
  exact ⟨t, bp, launch.congr same, answer⟩

end Returning

end UnixProgramming.Sdb
