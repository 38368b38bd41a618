import UnixProgramming.Foundation.Descriptor
import UnixProgramming.Foundation.Memory
import UnixProgramming.Foundation.Transition

/-!
# Where the log lines go

The launcher opens the log file, or copies standard error to descriptor 3, and passes
the number of the descriptor on. Each wrapper of `logger.so` calls the real function and
then writes its line to whatever that number stands for at the moment.

So the lines go where they should as long as the program leaves that descriptor open,
and no longer: the line about closing it is lost already.
-/

namespace UnixProgramming.Logger

open Descriptor Transition

/-- A `FILE *`. -/
abbrev Stream := BitVec 64

/-- The monitored calls. -/
inductive Call where
  | chmod (pathname : String) (mode : BitVec 32)
  | creat (pathname : String) (mode : BitVec 32)
  | creat64 (pathname : String) (mode : BitVec 32)
  | chown (pathname : String) (owner group : BitVec 32)
  | remove (pathname : String)
  | «open» (path : String) (flags mode : BitVec 32)
  | open64 (path : String) (flags mode : BitVec 32)
  | rename (oldpath newpath : String)
  | write (fd : Int) (buf : Memory.Addr) (count : BitVec 64)
  | read (fd : Int) (buf : Memory.Addr) (count : BitVec 64)
  | close (fd : Int)
  | fread (ptr : Memory.Addr) (size nmemb : BitVec 64) (stream : Stream)
  | fopen (pathname mode : String)
  | fopen64 (pathname mode : String)
  | fwrite (ptr : Memory.Addr) (size nitems : BitVec 64) (stream : Stream)
  | fclose (stream : Stream)
  | tmpfile
  | tmpfile64
  deriving DecidableEq

/-- What the real function of a call does with descriptors. -/
inductive Effect where
  | opens
  | fopens
  | closes (fd : Int)
  | fcloses (stream : Stream)
  | none

def Call.effect : Call → Effect
  | .creat _ _ | .creat64 _ _ | .open _ _ _ | .open64 _ _ _ => .opens
  | .fopen _ _ | .fopen64 _ _ | .tmpfile | .tmpfile64 => .fopens
  | .close fd => .closes fd
  | .fclose stream => .fcloses stream
  | _ => .none

/-- A line says which call was made and what it returned. -/
structure Line where
  call : Call
  retval : Int
  deriving DecidableEq

/-- The monitored process. `outputFd` is the value of `OUTPUT_FD`; next to each line stands
the open file that it was written to. -/
structure Process where
  table : Table
  streams : Stream → Option Nat
  outputFd : Int
  log : List (Line × Option File)

namespace Process

/-- The open file that a line goes to. -/
def target (p : Process) : Option File := p.table.lookup p.outputFd

/-- A real function with an effect may return `retval` and leave the process as `p'`. -/
inductive Real (p : Process) : Effect → Int → Process → Prop where
  | opened : Real p .opens p.table.lowest { p with table := p.table.openNew }
  | notOpened : Real p .opens (-1) p
  | fopened {stream : Stream} (fresh : p.streams stream = none) :
    Real p .fopens stream.toNat { p with
      table := p.table.openNew
      streams := Function.update p.streams stream (some p.table.lowest) }
  | notFopened : Real p .fopens 0 p
  /-- also when `close` reports an error of the file -/
  | closed {d : Nat} {retval : Int} (used : (p.table.file d).isSome) :
    Real p (.closes d) retval { p with table := p.table.close d }
  | notClosed {fd : Int} (unused : p.table.lookup fd = none) : Real p (.closes fd) (-1) p
  | fclosed {stream : Stream} {d : Nat} {retval : Int} (at_d : p.streams stream = some d) :
    Real p (.fcloses stream) retval { p with
      table := p.table.close d
      streams := Function.update p.streams stream none }
  | none {retval : Int} : Real p .none retval p

/-- `dprintf(atoi(getenv("OUTPUT_FD")), …)`. -/
def write (p : Process) (line : Line) : Process := { p with log := p.log ++ [(line, p.target)] }

/-- A wrapper: the real function, then the line. -/
def Step (c : Call) (p p' : Process) : Prop :=
  ∃ retval q, p.Real c.effect retval q ∧ p' = q.write ⟨c, retval⟩

end Process

section Launcher

/-- The launcher's descriptors when it starts the program, and `OUTPUT_FD`; `opens` says
whether `open` succeeds. -/
def launch (argFile : String) (opens : Bool) (t : Table) : Table × Int :=
  if argFile ≠ "" then
    if opens then (t.openNew, t.lowest) else (t, -1)
  else
    (t.dup2 2 3, 3)

/-- The open file that the output is for. -/
def output (argFile : String) (opens : Bool) (t : Table) : Option File :=
  if argFile ≠ "" then
    if opens then some t.next else none
  else
    t.file 2

/-- The program as it starts. -/
def started (argFile : String) (opens : Bool) (t : Table) (streams : Stream → Option Nat) : Process :=
  let (table, outputFd) := launch argFile opens t
  ⟨table, streams, outputFd, []⟩

variable {argFile : String} {opens : Bool} {t : Table} {chosen : File}

theorem started_target (streams : Stream → Option Nat) (h : output argFile opens t = some chosen) :
    (started argFile opens t streams).target = some chosen := by
  unfold output at h
  unfold Process.target started launch
  split at h
  · next given =>
    cases opens with
    | false => cases h
    | true =>
      rw [if_pos given]
      exact (Function.update_self t.lowest (some t.next) t.file).trans h
  · next given =>
    rw [if_neg given]
    exact Table.dup2_file h

end Launcher

section Lines

variable {p q : Process} {e : Effect} {c : Call} {retval : Int} {chosen first : File}

/-- The call closes the descriptor that the lines go to. -/
def Closes (p : Process) : Effect → Prop
  | .closes fd => p.outputFd = fd
  | .fcloses stream => ∃ d : Nat, p.streams stream = some d ∧ p.outputFd = d
  | _ => False

/-- One real function: the lines go on to the same file exactly if it does not close it. -/
theorem Process.Real.target_iff (h : p.target = some chosen) (real : p.Real e retval q) :
    q.target = some chosen ↔ ¬ Closes p e := by
  cases real with
  | opened => exact iff_of_true (Table.openNew_lookup h) id
  | notOpened => exact iff_of_true h id
  | fopened => exact iff_of_true (Table.openNew_lookup h) id
  | notFopened => exact iff_of_true h id
  | closed => exact Table.close_lookup h
  | @notClosed fd unused =>
    refine iff_of_true h fun (same : p.outputFd = fd) => ?_
    rw [← same] at unused
    exact absurd (h.symm.trans unused) nofun
  | @fclosed stream d _ at_d =>
    refine (Table.close_lookup h).trans (not_congr ?_)
    constructor
    · exact fun same => ⟨d, at_d, same⟩
    · rintro ⟨d', at_d', same⟩
      rw [at_d, Option.some.injEq] at at_d'
      exact at_d' ▸ same
  | none => exact iff_of_true h id

/-- All lines have gone to the chosen file, and none to a file of the program; the files it
has opened are those from `first` on. -/
structure Delivered (chosen first : File) (p : Process) : Prop where
  reached : ∀ entry ∈ p.log, entry.2 = some chosen
  foreign : ∀ entry ∈ p.log, ∀ f, entry.2 = some f → f < first

theorem delivered_iff (old : chosen < first) :
    Delivered chosen first p ↔ ∀ entry ∈ p.log, entry.2 = some chosen := by
  refine ⟨fun h => h.reached, fun h => ⟨h, fun entry listed f at_f => ?_⟩⟩
  have same := (h entry listed).symm.trans at_f
  exact Option.some.inj same ▸ old

/-- The lines so far have been delivered, and the next one will be. -/
structure Ready (chosen : File) (p : Process) : Prop where
  target : p.target = some chosen
  reached : ∀ entry ∈ p.log, entry.2 = some chosen

theorem Process.Real.log (real : p.Real e retval q) : q.log = p.log := by
  cases real <;> rfl

/-- One wrapper: its line, too, is delivered exactly if the call does not close the
descriptor. -/
theorem Ready.step_iff {p' : Process} (ready : Ready chosen p) (step : p.Step c p') :
    (∀ entry ∈ p'.log, entry.2 = some chosen) ↔ ¬ Closes p c.effect := by
  obtain ⟨retval, q, real, rfl⟩ := step
  rw [← real.target_iff ready.target, Process.write, real.log, List.forall_mem_append]
  simpa using fun _ => ready.reached

theorem Ready.step {p' : Process} (ready : Ready chosen p) (step : p.Step c p')
    (leaves : ¬ Closes p c.effect) : Ready chosen p' := by
  have reached := (ready.step_iff step).mpr leaves
  obtain ⟨retval, q, real, rfl⟩ := step
  exact ⟨(real.target_iff ready.target).mpr leaves, reached⟩

theorem Process.Step.earlier {p' : Process} (step : p.Step c p')
    (reached : ∀ entry ∈ p'.log, entry.2 = some chosen) : ∀ entry ∈ p.log, entry.2 = some chosen := by
  obtain ⟨retval, q, real, rfl⟩ := step
  exact fun entry listed => reached entry (List.mem_append_left _ (real.log ▸ listed))

/-- The lines of a run are delivered if and only if no call of the run closes the descriptor
that they go to. -/
theorem lines_delivered {argFile : String} {opens : Bool} {t : Table} {streams : Stream → Option Nat}
    {calls : List Call} (h : output argFile opens t = some chosen)
    (run : Run Process.Step calls (started argFile opens t streams) p) :
    Delivered chosen (launch argFile opens t).1.next p ↔
      Run (fun c p p' => p.Step c p' ∧ ¬ Closes p c.effect) calls (started argFile opens t streams) p := by
  have target := started_target streams h
  have ready {calls : List Call} {p : Process} (run : Run (fun c p p' => p.Step c p' ∧
      ¬ Closes p c.effect) calls (started argFile opens t streams) p) : Ready chosen p :=
    run.invariant (fun _ _ _ ready ⟨step, leaves⟩ => ready.step step leaves) ⟨target, nofun⟩
  have old : chosen < (launch argFile opens t).1.next := Table.lookup_numbered target
  rw [delivered_iff old]
  refine ⟨?_, fun gentle => (ready gentle).reached⟩
  -- the calls before the last have delivered theirs, so the last one finds the process ready
  refine run.past (P := fun calls p => (∀ entry ∈ p.log, entry.2 = some chosen) → Run _ calls _ p)
    (fun _ => .nil) fun calls p p' c _ ih step reached => ?_
  have before := ih (step.earlier reached)
  exact before.snoc ⟨step, ((ready before).step_iff step).mp reached⟩

/-- Descriptors 0, 1 and 2 on one terminal. -/
def terminal : Table where
  file d := if d < 3 then some 0 else none
  bound := 3
  next := 1
  free d high := if_neg (by omega)
  numbered {d f} h := by
    split at h
    · exact Option.some.inj h ▸ Nat.one_pos
    · cases h

/-- A program started there without `-o`, having no streams. -/
def bare : Process := started "" true terminal fun _ => none

theorem lines_delivered_bare :
    ∃ p, Run Process.Step [.close 2, .creat "aaa" 384] bare p ∧
      Delivered 0 (launch "" true terminal).1.next p := by
  let p₁ : Process := { bare with table := bare.table.close 2 }
  let p₂ : Process := p₁.write ⟨.close 2, 0⟩
  let p₃ : Process := { p₂ with table := p₂.table.openNew }
  have closed : bare.Step (.close 2) p₂ := ⟨0, p₁, .closed (d := 2) rfl, rfl⟩
  have created : p₂.Step (.creat "aaa" 384) (p₃.write ⟨.creat "aaa" 384, p₂.table.lowest⟩) :=
    ⟨p₂.table.lowest, p₃, .opened, rfl⟩
  have gentle : Run (fun c p p' => p.Step c p' ∧ ¬ Closes p c.effect) [.close 2, .creat "aaa" 384] bare
      (p₃.write ⟨.creat "aaa" 384, p₂.table.lowest⟩) :=
    .cons ⟨closed, fun same => by cases same⟩ (.cons ⟨created, id⟩ .nil)
  have run : Run Process.Step _ bare _ := gentle.mono fun _ _ _ _ both => both.1
  exact ⟨_, run, (lines_delivered rfl run).mpr gentle⟩

/-- After `close(3)` the line about `open` goes into the file that it opened. -/
theorem line_into_opened_file :
    ∃ p, Run Process.Step [.close 3, .open "x" 1 0] bare p ∧
      (⟨.open "x" 1 0, 3⟩, some 1) ∈ p.log ∧ ¬ Delivered 0 (launch "" true terminal).1.next p := by
  let p₁ : Process := { bare with table := bare.table.close 3 }
  let p₂ : Process := p₁.write ⟨.close 3, 0⟩
  let p₃ : Process := { p₂ with table := p₂.table.openNew }
  have closed : bare.Step (.close 3) p₂ := ⟨0, p₁, .closed (d := 3) rfl, rfl⟩
  have opened : p₂.Step (.open "x" 1 0) (p₃.write ⟨.open "x" 1 0, 3⟩) := ⟨3, p₃, .opened, rfl⟩
  have last : (⟨.open "x" 1 0, 3⟩, some 1) ∈ (p₃.write ⟨.open "x" 1 0, 3⟩).log :=
    List.mem_append_right _ List.mem_cons_self
  refine ⟨_, .cons closed (.cons opened .nil), last, fun ok => ?_⟩
  exact absurd (ok.reached _ last) (by decide)

end Lines

end UnixProgramming.Logger
