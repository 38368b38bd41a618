import UnixProgramming.Sdb.Output
import UnixProgramming.Sdb.Sample
import UnixProgramming.Sdb.Survival

/-!
# The file that is loaded, and the file that is started

`elf_read` opens the path with `fopen`, and `start` gives it to `execlp`, which looks for a
name without a slash in `PATH` only. Every failure of `start` ends the debugger.
-/

namespace UnixProgramming.Sdb

open Stateful Transition

variable {ι κ : Type}

section Lookup

/-- Why a file is not executed. After `absent` the search in `PATH` goes on. -/
inductive ExecError where
  | absent
  | noFormat
  | failed

/-- The files as the debugger and its child see them: where a path leads, what can be read,
and the process that `execve` makes of a file and its arguments. -/
structure FileSystem (ι κ : Type) where
  find : String → Except ExecError ι
  read : ι → Option (List Byte)
  image : ι → List String → Except ExecError (Program κ)
  path : List String

namespace FileSystem

variable (fs : FileSystem ι κ)

def fopen (name : String) : Option (List Byte) := (fs.find name).toOption.bind fs.read

/-- The file that is executed, and the process. -/
def execve (name : String) (args : List String) : Except ExecError (ι × Program κ) := do
  let file ← fs.find name
  return (file, ← fs.image file args)

/-- A file in an unknown format is given to the shell. -/
def attempt (name arg : String) : Except ExecError (ι × Program κ) :=
  match fs.execve name [arg] with
  | .error .noFormat => fs.execve "/bin/sh" ["/bin/sh", name]
  | result => result

/-- The search in `PATH`, where the empty name is the current directory. -/
def search (name : String) : List String → Option (ι × Program κ)
  | [] => none
  | dir :: dirs =>
    match fs.attempt (if dir = "" then name else dir ++ "/" ++ name) name with
    | .ok found => some found
    | .error .absent => search name dirs
    | .error _ => none

/-- `execlp(name, name, NULL)`, or nothing when it returns. -/
def execlp (name : String) : Option (ι × Program κ) :=
  if name = "" then none
  else if '/' ∈ name.toList then (fs.attempt name name).toOption
  else fs.search name fs.path

/-- The debugger's environment with these files. -/
def host (base : Host κ) : Host κ :=
  { base with file := fs.fopen, exec := fun name => (fs.execlp name).map (·.2) }

/-- A path with a slash is executed as it is. -/
theorem execlp_of_slash {fs : FileSystem ι κ} {name : String} {file : ι} {prog : Program κ}
    (slash : '/' ∈ name.toList) (found : fs.find name = .ok file) (image : fs.image file [name] = .ok prog) :
    fs.execlp name = some (file, prog) := by
  have nonempty : name ≠ "" := by
    rintro rfl
    cases slash
  have executed : fs.execve name [name] = .ok (file, prog) := by
    rw [execve, found]
    simp [Bind.bind, Except.bind, Pure.pure, Except.pure, image]
  rw [execlp, if_neg nonempty, if_pos slash, attempt, executed]
  rfl

end FileSystem

end Lookup

section Parsing

variable {host : Host κ} {w w' : World κ} {cmd : Command} {n : Nat}

/-- `info` is what `elf_read` has found at its path. -/
def ReadFrom (host : Host κ) (w : World κ) : Prop :=
  ∃ info v, elfRead host w.info.path v = .ok info v ∧
    w.info = { info with state := .loaded, path := w.info.path }

theorem load_readFrom {path : String} (idle : w.info.state = .noload)
    (ok : load host path w = .ok () w') : ReadFrom host w' := by
  cases read : elfRead host path w with
  | error e v => simp [load, idle, read] at ok
  | ok info v =>
    obtain ⟨rfl, -⟩ := elfRead_ok read
    simp [load, idle, read, stderr, emit] at ok
    rw [← ok]
    exact ⟨info, v, read, rfl⟩

theorem Step.readFrom (tidy : w.Tidy) (before : w.info.state = .loaded → ReadFrom host w)
    (step : Step host cmd w w') (loaded : w'.info.state = .loaded) : ReadFrom host w' := by
  obtain same | ⟨path, rfl, idle⟩ := (step.outcome tidy).loads tidy loaded
  · unfold ReadFrom
    rw [same]
    exact before (same ▸ loaded)
  · obtain ⟨n, ok⟩ := step
    exact load_readFrom idle ok

/-- In the `LOADED` state the entry and the size are those of the file at the path. -/
theorem Reachable.readFrom (reached : Reachable host w) (loaded : w.info.state = .loaded) :
    ReadFrom host w := by
  obtain ⟨cs, run⟩ := reached
  have both := run.invariant (I := fun w => w.Tidy ∧ (w.info.state = .loaded → ReadFrom host w))
    (fun cmd v v' ⟨tidy, before⟩ step => ⟨step.tidy tidy, step.readFrom tidy before⟩)
    ⟨World.init_tidy host, fun loaded => by cases loaded⟩
  exact both.2 loaded

theorem ReadFrom.opened (h : ReadFrom host w) : ∃ bytes, host.file w.info.path = some bytes := by
  obtain ⟨info, v, read, -⟩ := h
  cases found : host.file w.info.path with
  | some bytes => exact ⟨bytes, rfl⟩
  | none => simp [elfRead, found, stderr, emit] at read

end Parsing

section Starting

variable (fs : FileSystem ι κ) (base : Host κ)

/-- `elf_read` has parsed the header of `file`. -/
def HeaderOf (w : World κ) (file : ι) : Prop :=
  fs.find w.info.path = .ok file ∧ ReadFrom (fs.host base) w

/-- The debuggee is a stopped process that executes `file`. -/
structure RunsFile (w' : World κ) (file : ι) : Prop where
  running : w'.info.state = .running
  process : ∃ prog, fs.execlp w'.info.path = some (file, prog) ∧
    w'.child = some ⟨w'.info.pid, prog, prog.image, none⟩

/-- Nothing has been started, and a message says so. -/
structure FailsCleanly (w w' : World κ) : Prop where
  loaded : w'.info.state = .loaded
  unborn : w'.child = none
  reported : ∃ text texts, w'.said = text :: texts ++ w.said

/-- `start` comes back, with a process that executes `file` or without one. -/
def RunsOrFails (w : World κ) (file : ι) : Prop :=
  ∃ w', Step (fs.host base) .start w w' ∧ (RunsFile fs w' file ∨ FailsCleanly w w')

variable {fs base} {w : World κ}

/-- `start` does what it should if and only if the `fork` succeeds, `execlp` executes the
file that `fopen` has found, and the sweep over its code ends. -/
theorem start_runs_iff (reached : Reachable (fs.host base) w) (loaded : w.info.state = .loaded) :
    ∃ file, HeaderOf fs base w file ∧ (RunsOrFails fs base w file ↔
      (∃ pid, base.fork w.forks = some pid) ∧ ∃ prog, fs.execlp w.info.path = some (file, prog) ∧
        (base.csOpen = true → Sweeps (fs.host base) prog.image.mem
          (w.info.entry + w.info.size) w.info.entry)) := by
  have parsed := reached.readFrom loaded
  obtain ⟨bytes, opened⟩ := parsed.opened
  obtain ⟨file, found, -⟩ := Option.bind_eq_some_iff.mp opened
  have found : fs.find w.info.path = .ok file := by
    cases located : fs.find w.info.path with
    | error e => simp [located, Except.toOption] at found
    | ok i =>
      rw [located] at found
      exact congrArg Except.ok (Option.some.inj found)
  refine ⟨file, ⟨found, parsed⟩, ?_⟩
  constructor
  · rintro ⟨w', ⟨n, ok⟩, outcome⟩
    obtain ⟨idle, -⟩ | begun := start_ok ok
    · exact absurd loaded idle
    obtain ⟨pid, prog, startable⟩ := (start_returns_iff loaded).mp ⟨n, w', ok⟩
    refine ⟨⟨pid, startable.forked⟩, ?_⟩
    obtain ⟨ins, l, -, -, executed⟩ := begun
    obtain ⟨-, prog', same, born⟩ | failed := outcome
    · refine ⟨prog', same, fun decoder => ?_⟩
      obtain rfl : prog = prog' := by
        have exec : (fs.host base).exec w.info.path = some prog' := by
          simp only [FileSystem.host, same, Option.map_some]
        exact Option.some.inj (startable.found.symm.trans exec)
      exact startable.swept decoder
    · cases failed.loaded
  · rintro ⟨⟨pid, forked⟩, prog, same, swept⟩
    have exec : (fs.host base).exec w.info.path = some prog := by
      simp only [FileSystem.host, same, Option.map_some]
    have startable : Startable (fs.host base) w pid prog := ⟨forked, exec, swept⟩
    obtain ⟨n, w', ok⟩ := (start_returns_iff loaded).mpr ⟨pid, prog, startable⟩
    refine ⟨w', ⟨n, ok⟩, .inl ?_⟩
    obtain ⟨idle, -⟩ | ⟨ins, l, -, -, executed⟩ := start_ok ok
    · exact absurd loaded idle
    · obtain rfl := Option.some.inj (exec.symm.trans executed)
      exact ⟨rfl, _, same, rfl⟩

end Starting

section Samples

open Sample

/-- A `nop` in the current directory, which is not in `PATH`. -/
def workspace : FileSystem Unit Unit where
  find name := if name = "nop" ∨ name = "./nop" then .ok () else .error .absent
  read _ := some (elf [0x90])
  image _ _ := .ok (sample [0x90])
  path := ["/usr/bin", "/bin"]

abbrev workspaceHost : Host Unit := workspace.host (host [0x90])

theorem start_runs_iff_slash : ∃ w, Reachable workspaceHost w ∧ w.info.state = .loaded ∧
    RunsOrFails workspace (host [0x90]) w () := by
  have summary : ((session workspaceHost 40 [.load "./nop"]).bind fun w =>
      (next? workspaceHost 40 .start w).map fun _ => (w.info.state, w.info.path)) =
      some (.loaded, "./nop") := by
    decide +kernel
  obtain ⟨w, ended, rest⟩ := Option.bind_eq_some_iff.mp summary
  obtain ⟨w', begun, facts⟩ := Option.map_eq_some_iff.mp rest
  simp only [Prod.mk.injEq] at facts
  obtain ⟨loaded, path⟩ := facts
  have reached : Reachable workspaceHost w := ⟨_, run_of_session ended⟩
  have startable : ∃ pid prog, Startable workspaceHost w pid prog :=
    (start_returns_iff loaded).mp ⟨40, w', exec_of_next? begun⟩
  obtain ⟨pid, prog, startable⟩ := startable
  obtain ⟨file, -, exactly⟩ := start_runs_iff reached loaded
  refine ⟨w, reached, loaded, exactly.mpr ⟨⟨pid, startable.forked⟩, sample [0x90], ?_, ?_⟩⟩
  · rw [path]
    exact FileSystem.execlp_of_slash (by decide) rfl rfl
  · have same : workspaceHost.exec w.info.path = some (sample [0x90]) := by
      rw [path]
      rfl
    obtain rfl := Option.some.inj (startable.found.symm.trans same)
    exact startable.swept

/-- Without a slash the file is loaded but not started, and the debugger is aborted. -/
theorem start_aborts_outside_path : ∃ w, Reachable workspaceHost w ∧ w.info.state = .loaded ∧
    HeaderOf workspace (host [0x90]) w () ∧ ¬ RunsOrFails workspace (host [0x90]) w () ∧
    ∀ n, ∃ w', exec workspaceHost n .start w = .error .abort w' := by
  have summary : (session workspaceHost 40 [.load "nop"]).map (fun w => (w.info.state, w.info.path)) =
      some (.loaded, "nop") := by
    decide +kernel
  obtain ⟨w, ended, facts⟩ := Option.map_eq_some_iff.mp summary
  simp only [Prod.mk.injEq] at facts
  obtain ⟨loaded, path⟩ := facts
  have reached : Reachable workspaceHost w := ⟨_, run_of_session ended⟩
  have located : workspace.find w.info.path = .ok () := by
    rw [path]
    rfl
  have missing : workspaceHost.exec w.info.path = none := by
    rw [path]
    decide +kernel
  have aborts (n : Nat) : ∃ w', exec workspaceHost n .start w = .error .abort w' := by
    have forked : workspaceHost.fork w.forks = some (4242 + w.forks) := rfl
    apply Exists.intro
    simp [exec, start, loaded, emit, forked, missing]
    rfl
  refine ⟨w, reached, loaded, ⟨located, reached.readFrom loaded⟩, ?_, aborts⟩
  rintro ⟨w', ⟨n, ok⟩, -⟩
  obtain ⟨v, ended⟩ := aborts n
  cases ended.symm.trans ok

end Samples

end UnixProgramming.Sdb
