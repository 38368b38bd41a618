import UnixProgramming.Sdb.Request

/-!
# What the commands that change the debuggee can do

For each of them an equation that gives its outcome, up to the log, from the
stopped child. The invariants start from these equations and do not unfold the
commands again.
-/

namespace UnixProgramming.Sdb

open Memory Stateful

variable {κ : Type}

section Control

/-- The debuggee is there, stopped, and is the process the debugger talks to. -/
structure World.Stopped (w : World κ) (c : Child κ) : Prop where
  child : w.child = some c
  pid : c.pid = w.info.pid
  resumed : c.resumed = none

variable {w : World κ} {c : Child κ}

/-- A world with a stopped debuggee, field by field. -/
theorem World.Stopped.shape (h : w.Stopped c) : ∃ info bp ins prog t forks log,
    w = ⟨info, bp, ins, some ⟨info.pid, prog, t, none⟩, forks, log⟩ ∧
      c = ⟨info.pid, prog, t, none⟩ := by
  obtain ⟨child, own, resumed⟩ := h
  obtain ⟨pid, prog, t, _⟩ := c
  obtain ⟨info, bp, ins, _, forks, log⟩ := w
  dsimp only at *
  subst child own resumed
  exact ⟨info, bp, ins, prog, t, forks, log, rfl, rfl⟩

theorem getRegs_of_stopped (h : w.Stopped c) : getRegs w.info.pid w =
    .ok (some c.tracee.regs) { w with log := .ptrace w.info.pid .getRegs :: w.log } := by
  obtain ⟨info, bp, ins, prog, t, forks, log, rfl, rfl⟩ := h.shape
  dsimp only at *
  exact getRegs_stopped ..

theorem getRegs_of_gone (gone : w.child = none) : getRegs w.info.pid w =
    .ok none { w with log := .ptrace w.info.pid .getRegs :: w.log } := by
  obtain ⟨info, bp, ins, _, forks, log⟩ := w
  dsimp only at gone
  subst gone
  exact getRegs_gone ..

/-- The debuggee with the original byte of `bp` back in place. -/
def unarm (bp : Breakpoint) (t : Tracee κ) : Tracee κ :=
  { t with mem := Function.update t.mem bp.addr (some bp.origPatch) }

/-- The debuggee `after` a step with the word read `before` it written back armed:
the seven bytes behind the breakpoint are those from before the step. -/
def rearm (bp : Breakpoint) (before after : Tracee κ) : Tracee κ :=
  { after with
    mem := Function.update ((window bp.addr 8).piecewise before.mem after.mem) bp.addr (some int3) }

theorem stepOver_eq (h : w.Stopped c) (n : Nat) : ∃ l, stepOver n w =
    if Readable c.tracee.mem w.bpRestore.addr then
      match c.prog.step (unarm w.bpRestore c.tracee) with
      | e =>
        match e.tracee? with
        | none => .error (.exit (-1)) { w with child := none, log := l }
        | some t =>
          if Readable t.mem w.bpRestore.addr then
            .ok e.status
              { w with
                child := some { c with tracee := rearm w.bpRestore c.tracee t }
                bpRestore := .empty
                log := l }
          else
            .error (.exit (-1)) { w with child := some { c with tracee := t }, log := l }
    else
      .error (.exit (-1)) { w with log := l } := by
  obtain ⟨info, bp, ins, prog, t, forks, log, rfl, rfl⟩ := h.shape
  dsimp only at *
  by_cases readable : Readable t.mem bp.addr
  swap
  · apply Exists.intro
    simp [stepOver, errquit, stderr, emit, readable, peek_eq_none readable, poke_eq_none readable]
    rfl
  obtain ⟨code, read⟩ := Option.isSome_iff_exists.mp (peek_isSome_iff.mpr readable)
  have back := poke_setLow_self read bp.origPatch
  have stepped : ({ t with mem := Function.update t.mem bp.addr (some bp.origPatch) } : Tracee κ) =
    unarm bp t := rfl
  simp only [readable, if_true]
  cases end? : (prog.step (unarm bp t)).tracee? with
  | none =>
    apply Exists.intro
    simp [stepOver, errquit, stderr, emit, read, back, stepped, Program.answer, end?]
    rfl
  | some t' =>
    by_cases still : Readable t'.mem bp.addr
    · have again := poke_setLow read still int3
      apply Exists.intro
      simp [stepOver, read, back, stepped, Program.answer, end?, still, again, rearm]
      rfl
    · apply Exists.intro
      simp [stepOver, errquit, stderr, emit, read, back, stepped, Program.answer, end?, still,
        poke_eq_none still]
      rfl

/-- Some recorded instruction starts at `addr`. -/
def Recorded (ins : List Instruction1) (addr : Addr) : Prop := ∃ i ∈ ins, i.addr = addr

instance (ins : List Instruction1) (addr : Addr) : Decidable (Recorded ins addr) :=
  inferInstanceAs (Decidable (∃ i ∈ ins, i.addr = addr))

theorem find?_eq_none_iff_not_recorded {ins : List Instruction1} {addr : Addr} :
    (ins.find? fun i => i.addr = addr) = none ↔ ¬ Recorded ins addr := by
  simp [Recorded]

/-- The breakpoint that the loop of `cont` settles on after a stop. -/
def hit? (ins : List Instruction1) (regs : UserRegs) (bps : List Breakpoint) : Option Breakpoint :=
  bps.find? fun it => it.addr = rip regs - 1 ∧ Recorded ins it.addr

theorem hit?_cons (ins : List Instruction1) (regs : UserRegs) (it : Breakpoint)
    (rest : List Breakpoint) : hit? ins regs (it :: rest) =
      if it.addr = rip regs - 1 ∧ Recorded ins it.addr then some it else hit? ins regs rest := by
  by_cases h : it.addr = rip regs - 1 ∧ Recorded ins it.addr
  · rw [if_pos h, hit?, List.find?_cons_of_pos (by simpa using h)]
  · rw [if_neg h, hit?, List.find?_cons_of_neg (by simpa using h), ← hit?]

/-- The debuggee with `rip` moved back over the breakpoint instruction. -/
def rewind (t : Tracee κ) : Tracee κ := { t with regs := setRip t.regs (rip t.regs - 1) }

theorem reportHit_eq (info : ProgInfo) (bp : Breakpoint) (ins : List Instruction1)
    (prog : Program κ) (t : Tracee κ) (forks : Nat) (log : List Effect) (bps : List Breakpoint) :
    ∃ l, reportHit t.regs bps ⟨info, bp, ins, some ⟨info.pid, prog, t, none⟩, forks, log⟩ =
      match hit? ins t.regs bps with
      | none => .ok false ⟨info, bp, ins, some ⟨info.pid, prog, t, none⟩, forks, l⟩
      | some it => .ok true ⟨info, it, ins, some ⟨info.pid, prog, rewind t, none⟩, forks, l⟩ := by
  induction bps generalizing log with
  | nil => exact ⟨log, by simp [reportHit, hit?]⟩
  | cons it rest ih =>
    rw [hit?_cons]
    by_cases here : it.addr = rip t.regs - 1
    · cases found : ins.find? fun i => i.addr = it.addr with
      | none =>
        have unrecorded := find?_eq_none_iff_not_recorded.mp found
        obtain ⟨l, same⟩ := ih (.stderr "** breakpoint @\t" :: log)
        refine ⟨l, ?_⟩
        rw [if_neg fun both => unrecorded both.2, ← same, reportHit, if_pos here]
        simp [stderr, emit, found]
      | some i =>
        have recorded : Recorded ins it.addr := by
          by_contra no
          rw [find?_eq_none_iff_not_recorded.mpr no] at found
          cases found
        apply Exists.intro
        rw [if_pos ⟨here, recorded⟩, reportHit, if_pos here]
        simp [stderr, emit, found, rewind]
        rfl
    · obtain ⟨l, same⟩ := ih log
      refine ⟨l, ?_⟩
      rw [if_neg fun both => here both.1, ← same, reportHit, if_neg here]

/-- A debuggee that is still there has stopped, perhaps at a breakpoint. -/
theorem afterWait_stopped (info : ProgInfo) (bp : Breakpoint) (ins : List Instruction1)
    (prog : Program κ) {t : Tracee κ} (forks : Nat) (log : List Effect) {e : Event κ}
    (left : e.tracee? = some t) :
    ∃ l, afterWait e.status ⟨info, bp, ins, some ⟨info.pid, prog, t, none⟩, forks, log⟩ =
      match hit? ins t.regs info.bpVec with
      | none => .ok () ⟨info, bp, ins, some ⟨info.pid, prog, t, none⟩, forks, l⟩
      | some it => .ok () ⟨info, it, ins, some ⟨info.pid, prog, rewind t, none⟩, forks, l⟩ := by
  obtain ⟨l, hit⟩ := reportHit_eq info bp ins prog t forks (.ptrace info.pid .getRegs :: log) info.bpVec
  have alive : wifstopped e.status := by simp [left]
  have not_exited : ¬ wifexited e.status := by
    rw [wifexited_status]
    rintro ⟨code, rfl⟩
    cases left
  refine ⟨l, ?_⟩
  cases found : hit? ins t.regs info.bpVec <;> simp [afterWait, alive, hit, found, not_exited]

/-- One that has exited is reported, and the program unloaded. -/
theorem afterWait_exited (info : ProgInfo) (bp : Breakpoint) (ins : List Instruction1) (forks : Nat)
    (log : List Effect) (code : BitVec 8) :
    afterWait (Event.exited code : Event κ).status (⟨info, bp, ins, none, forks, log⟩ : World κ) =
      .ok () ⟨.empty, bp, ins, none, forks,
        .stderr (terminatedNormally info.pid (code.toNat * 256)) :: log⟩ := by
  have ended : wifexited (Event.status (.exited code : Event κ)) := by simp
  simp [afterWait, Event.tracee?, wifexited_not_wifsignaled ended, stderr, emit]
  rfl

/-- One that a signal has killed is not. -/
theorem afterWait_signaled (sig : Signal) (core : Bool) (w : World κ) :
    afterWait (Event.signaled sig core : Event κ).status w = .ok () w := by
  simp [afterWait, Event.tracee?]

theorem goOn_eq (h : w.Stopped c) (status n : Nat) : ∃ l, goOn status n w =
    match c.prog.resume n c.tracee with
    | none => .error .waiting { w with child := some { c with resumed := some .cont }, log := l }
    | some e =>
      match e.tracee? with
      | some t =>
        match hit? w.origInstructions t.regs w.info.bpVec with
        | none => .ok () { w with child := some { c with tracee := t }, log := l }
        | some it => .ok ()
            { w with child := some { c with tracee := rewind t }, bpRestore := it, log := l }
      | none =>
        match e with
        | .exited code => .ok ()
            { w with
              info := .empty
              child := none
              log := .stderr (terminatedNormally w.info.pid (code.toNat * 256)) :: l }
        | _ => .ok () { w with child := none, log := l } := by
  obtain ⟨info, bp, ins, prog, t, forks, log, rfl, rfl⟩ := h.shape
  dsimp only at *
  cases answer : prog.resume n t with
  | none =>
    apply Exists.intro
    simp [goOn, Program.answer, answer]
    rfl
  | some e =>
    cases left : e.tracee? with
    | some t' =>
      obtain ⟨l, waited⟩ := afterWait_stopped info bp ins prog forks
        (.ptrace info.pid Resume.cont.request :: log) left
      refine ⟨l, ?_⟩
      cases found : hit? ins t'.regs info.bpVec <;>
        simp [goOn, Program.answer, answer, left, waited, found]
    | none =>
      cases e with
      | next t' => cases left
      | stop sig t' => cases left
      | exited code =>
        apply Exists.intro
        simp [goOn, Program.answer, answer, left, afterWait_exited]
        rfl
      | signaled sig core =>
        apply Exists.intro
        simp [goOn, Program.answer, answer, left, afterWait_signaled]
        rfl

theorem cont_of_away (h : w.Stopped c) (running : w.info.state = .running)
    (away : rip c.tracee.regs ≠ w.bpRestore.addr) (uninit n : Nat) :
    ∃ l, cont uninit n w = goOn uninit n { w with log := l } := by
  obtain ⟨info, bp, ins, prog, t, forks, log, rfl, rfl⟩ := h.shape
  dsimp only at *
  exact ⟨.ptrace info.pid .getRegs :: log, by simp [cont, running, away]⟩

theorem cont_of_at (h : w.Stopped c) (running : w.info.state = .running)
    (here : rip c.tracee.regs = w.bpRestore.addr) (uninit n : Nat) :
    ∃ l, cont uninit n w = (stepOver n >>= fun status => goOn status n) { w with log := l } := by
  obtain ⟨info, bp, ins, prog, t, forks, log, rfl, rfl⟩ := h.shape
  dsimp only at *
  exact ⟨.ptrace info.pid .getRegs :: log, by simp [cont, running, here]⟩

theorem si_eq (h : w.Stopped c) (running : w.info.state = .running) (n : Nat) :
    ∃ l, si n w = .ok ()
      { w with
        child := (c.prog.step c.tracee).tracee?.map fun t => { c with tracee := t }
        log := l } := by
  obtain ⟨info, bp, ins, prog, t, forks, log, rfl, rfl⟩ := h.shape
  dsimp only at *
  exact ⟨.ptrace info.pid Resume.singleStep.request :: log, by simp [si, running, Program.answer]⟩

/-- The debuggee with the breakpoint instruction planted at `addr`. -/
def plant (addr : Addr) (t : Tracee κ) : Tracee κ :=
  { t with mem := Function.update t.mem addr (some int3) }

theorem setBp_eq (h : w.Stopped c) (running : w.info.state = .running) (addr : Addr) :
    ∃ l, setBp addr w =
      if addr ∈ w.info.addrs then
        .ok () { w with log := l }
      else
        match peek c.tracee.mem addr with
        | some code => .ok ()
            { w with
              info := { w.info with bpVec := w.info.bpVec ++ [⟨addr, byte code 0⟩] }
              child := some { c with tracee := plant addr c.tracee }
              log := l }
        | none => .error (.exit (-1))
            { w with
              info := { w.info with bpVec := w.info.bpVec ++ [⟨addr, byte (-1) 0⟩] }
              log := l } := by
  obtain ⟨info, bp, ins, prog, t, forks, log, rfl, rfl⟩ := h.shape
  dsimp only at *
  by_cases known : addr ∈ info.addrs
  · apply Exists.intro
    simp [setBp, running, known]
    rfl
  cases read : peek t.mem addr with
  | none =>
    have unwritable (word : BitVec 64) : poke t.mem addr word = none :=
      poke_eq_none fun readable => by simpa [read] using peek_isSome_iff.mpr readable
    apply Exists.intro
    simp [setBp, running, known, read, unwritable, errquit, stderr, emit]
    rfl
  | some code =>
    apply Exists.intro
    simp [setBp, running, known, read, poke_setLow_self read, plant]
    rfl

theorem delBp_eq (h : w.Stopped c) {idx : Int} {bp : Breakpoint}
    (found : w.info.bpVec[bpIndex idx]? = some bp) :
    ∃ l, delBp idx w =
      if Readable c.tracee.mem bp.addr then
        .ok ()
          { w with
            info := { w.info with bpVec := w.info.bpVec.eraseIdx (bpIndex idx) }
            bpRestore := if w.bpRestore.addr = bp.addr then .empty else w.bpRestore
            child := some { c with tracee := unarm bp c.tracee }
            log := l }
      else
        .error (.exit (-1))
          { w with
            bpRestore := if w.bpRestore.addr = bp.addr then .empty else w.bpRestore
            log := l } := by
  obtain ⟨info, kept, ins, prog, t, forks, log, rfl, rfl⟩ := h.shape
  dsimp only at *
  by_cases readable : Readable t.mem bp.addr
  · obtain ⟨code, read⟩ := Option.isSome_iff_exists.mp (peek_isSome_iff.mpr readable)
    apply Exists.intro
    by_cases same : kept.addr = bp.addr <;>
      simp [delBp, found, readable, read, poke_setLow_self read, unarm, stderr, emit, same] <;> rfl
  · apply Exists.intro
    by_cases same : kept.addr = bp.addr <;>
      simp [delBp, found, readable, peek_eq_none, poke_eq_none, errquit, stderr, emit, same] <;> rfl

theorem setReg_eq (h : w.Stopped c) (running : w.info.state = .running) (reg : String)
    (val : BitVec 64) :
    ∃ l, setReg reg val w =
      match regsOffset.lookup reg with
      | none => .ok () { w with log := l }
      | some offset => .ok ()
          { w with
            child := some { c with
              tracee := { c.tracee with regs := Function.update c.tracee.regs offset val } }
            log := l } := by
  obtain ⟨info, bp, ins, prog, t, forks, log, rfl, rfl⟩ := h.shape
  dsimp only at *
  cases found : regsOffset.lookup reg with
  | none =>
    apply Exists.intro
    simp [setReg, running, found, stderr, emit]
    rfl
  | some offset =>
    apply Exists.intro
    simp [setReg, running, found]
    rfl

end Control

section Gone

variable {w : World κ}

theorem setBp_of_gone (gone : w.child = none) (running : w.info.state = .running) (addr : Addr) :
    ∃ l, setBp addr w =
      if addr ∈ w.info.addrs then
        .ok () { w with log := l }
      else
        .error (.exit (-1))
          { w with
            info := { w.info with bpVec := w.info.bpVec ++ [⟨addr, byte (-1) 0⟩] }
            log := l } := by
  obtain ⟨info, bp, ins, _, forks, log⟩ := w
  dsimp only at *
  subst gone
  by_cases known : addr ∈ info.addrs
  · apply Exists.intro
    simp [setBp, running, known]
    rfl
  · apply Exists.intro
    simp [setBp, running, known, errquit, stderr, emit]
    rfl

theorem delBp_of_gone (gone : w.child = none) {idx : Int} {bp : Breakpoint}
    (found : w.info.bpVec[bpIndex idx]? = some bp) :
    ∃ l, delBp idx w = .error (.exit (-1))
      { w with
        bpRestore := if w.bpRestore.addr = bp.addr then .empty else w.bpRestore
        log := l } := by
  obtain ⟨info, kept, ins, _, forks, log⟩ := w
  dsimp only at *
  subst gone
  by_cases same : kept.addr = bp.addr
  · apply Exists.intro
    simp [delBp, found, errquit, stderr, emit, same]
    rfl
  · apply Exists.intro
    simp [delBp, found, errquit, stderr, emit, same]
    rfl

theorem setReg_of_gone (gone : w.child = none) (running : w.info.state = .running) (reg : String)
    (val : BitVec 64) : ∃ l, setReg reg val w = .error (.exit (-1)) { w with log := l } := by
  have asked := getRegs_of_gone gone
  apply Exists.intro
  simp [setReg, running, asked, errquit, stderr, emit]
  rfl

theorem cont_of_gone (gone : w.child = none) (running : w.info.state = .running) (uninit n : Nat) :
    ∃ l, cont uninit n w = .error (.exit (-1)) { w with log := l } := by
  have asked := getRegs_of_gone gone
  apply Exists.intro
  simp [cont, running, asked, errquit, stderr, emit]
  rfl

theorem si_of_gone (gone : w.child = none) (running : w.info.state = .running) (n : Nat) :
    ∃ l, si n w = .error (.exit (-1)) { w with log := l } := by
  obtain ⟨info, bp, ins, _, forks, log⟩ := w
  dsimp only at *
  subst gone
  apply Exists.intro
  simp [si, running, errquit, stderr, emit]
  rfl

end Gone

end UnixProgramming.Sdb
