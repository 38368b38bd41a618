import UnixProgramming.Sdb.Outcome

/-!
# The transitions of the debugger

`Outcome` lists what a command that comes back can have done to a tidy world: one
in which the debuggee, while it exists, is stopped and the state is `RUNNING`, and
breakpoints are listed only in that state. Every reachable world is tidy, so
invariants over whole runs are proved by cases on `Outcome`.
-/

namespace UnixProgramming.Sdb

open Memory Transition Stateful

variable {κ : Type}

structure World.Tidy (w : World κ) : Prop where
  child : ∀ c, w.child = some c → w.Stopped c ∧ w.info.state = .running
  idle : w.info.state ≠ .running → w.info.bpVec = []

theorem World.Tidy.quiet {w w' : World κ} (h : w.Tidy) (same : SameButLog w w') : w'.Tidy := by
  rw [same]
  exact ⟨fun c hc => ⟨⟨(h.child c hc).1.child, (h.child c hc).1.pid, (h.child c hc).1.resumed⟩,
    (h.child c hc).2⟩, h.idle⟩

section Cont

/-- The debuggee and `bp_restore` with which `cont` reaches `PTRACE_CONT`. -/
inductive Launch (w : World κ) (c : Child κ) : Tracee κ → Breakpoint → Prop where
  | away : rip c.tracee.regs ≠ w.bpRestore.addr → Launch w c c.tracee w.bpRestore
  | stepped {t} : rip c.tracee.regs = w.bpRestore.addr → Readable c.tracee.mem w.bpRestore.addr →
      (c.prog.step (unarm w.bpRestore c.tracee)).tracee? = some t →
      Readable t.mem w.bpRestore.addr → Launch w c (rearm w.bpRestore c.tracee t) .empty

/-- A launch reads nothing of the world but `bp_restore`. -/
theorem Launch.congr {w w₁ : World κ} {c : Child κ} {t : Tracee κ} {bp : Breakpoint}
    (h : Launch w c t bp) (same : w₁.bpRestore = w.bpRestore) : Launch w₁ c t bp := by
  cases h with
  | away far =>
    rw [← same] at far ⊢
    exact .away far
  | stepped here readable moved still =>
    rw [← same] at here readable moved still ⊢
    exact .stepped here readable moved still

theorem Launch.unique {w : World κ} {c : Child κ} {t t' : Tracee κ} {bp bp' : Breakpoint}
    (h : Launch w c t bp) (h' : Launch w c t' bp') : t = t' ∧ bp = bp' := by
  cases h with
  | away far =>
    cases h' with
    | away => exact ⟨rfl, rfl⟩
    | stepped here => exact absurd here far
  | stepped here _ moved =>
    cases h' with
    | away far => exact absurd here far
    | stepped _ _ moved' =>
      obtain rfl := Option.some.inj (moved.symm.trans moved')
      exact ⟨rfl, rfl⟩

/-- How `cont` comes back once the debuggee `t` runs. -/
inductive Landing (n : Nat) (w : World κ) (c : Child κ) (t : Tracee κ) (bp : Breakpoint) :
    World κ → Prop where
  | hit {e t' it} (l) : c.prog.resume n t = some e → e.tracee? = some t' →
      hit? w.origInstructions t'.regs w.info.bpVec = some it →
      Landing n w c t bp
        { w with child := some { c with tracee := rewind t' }, bpRestore := it, log := l }
  | stop {e t'} (l) : c.prog.resume n t = some e → e.tracee? = some t' →
      hit? w.origInstructions t'.regs w.info.bpVec = none →
      Landing n w c t bp { w with child := some { c with tracee := t' }, bpRestore := bp, log := l }
  | exited {code} (l) : c.prog.resume n t = some (.exited code) →
      Landing n w c t bp
        { w with
          info := .empty
          child := none
          bpRestore := bp
          log := .stderr (terminatedNormally w.info.pid (code.toNat * 256)) :: l }
  | signaled {sig core} (l) : c.prog.resume n t = some (.signaled sig core) →
      Landing n w c t bp { w with child := none, bpRestore := bp, log := l }

theorem Landing.answer {n : Nat} {w w' : World κ} {c : Child κ} {t : Tracee κ} {bp : Breakpoint}
    (h : Landing n w c t bp w') : ∃ e, c.prog.resume n t = some e := by
  cases h with
  | hit l answer => exact ⟨_, answer⟩
  | stop l answer => exact ⟨_, answer⟩
  | exited l answer => exact ⟨_, answer⟩
  | signaled l answer => exact ⟨_, answer⟩

theorem goOn_ok {w w' : World κ} {c : Child κ} {status n : Nat} (h : w.Stopped c)
    (ok : goOn status n w = .ok () w') : Landing n w c c.tracee w.bpRestore w' := by
  obtain ⟨l, same⟩ := goOn_eq h status n
  rw [same] at ok
  cases answer : c.prog.resume n c.tracee with
  | none => simp [answer] at ok
  | some e =>
    simp only [answer] at ok
    cases left : e.tracee? with
    | some t =>
      simp only [left] at ok
      cases found : hit? w.origInstructions t.regs w.info.bpVec with
      | none =>
        simp only [found, EStateM.Result.ok.injEq, true_and] at ok
        exact ok ▸ .stop l answer left found
      | some it =>
        simp only [found, EStateM.Result.ok.injEq, true_and] at ok
        exact ok ▸ .hit l answer left found
    | none =>
      cases e with
      | next t => cases left
      | stop sig t => cases left
      | exited code =>
        simp only [Event.tracee?, EStateM.Result.ok.injEq, true_and] at ok
        exact ok ▸ .exited l answer
      | signaled sig core =>
        simp only [Event.tracee?, EStateM.Result.ok.injEq, true_and] at ok
        exact ok ▸ .signaled l answer

theorem World.Stopped.log {w : World κ} {c : Child κ} (h : w.Stopped c) (l : List Effect) :
    World.Stopped { w with log := l } c := ⟨h.child, h.pid, h.resumed⟩

theorem stepOver_ok {w w' : World κ} {c : Child κ} {n status : Nat} (h : w.Stopped c)
    (ok : stepOver n w = .ok status w') :
    ∃ t l, Readable c.tracee.mem w.bpRestore.addr ∧
      (c.prog.step (unarm w.bpRestore c.tracee)).tracee? = some t ∧
      Readable t.mem w.bpRestore.addr ∧
      w' = { w with
        child := some { c with tracee := rearm w.bpRestore c.tracee t }
        bpRestore := .empty
        log := l } := by
  obtain ⟨l, same⟩ := stepOver_eq h n
  rw [same] at ok
  by_cases readable : Readable c.tracee.mem w.bpRestore.addr
  swap
  · simp [readable] at ok
  cases left : (c.prog.step (unarm w.bpRestore c.tracee)).tracee? with
  | none => simp [readable, left] at ok
  | some t =>
    by_cases still : Readable t.mem w.bpRestore.addr
    · simp only [readable, left, still, if_true, EStateM.Result.ok.injEq] at ok
      exact ⟨t, l, readable, rfl, still, ok.2.symm⟩
    · simp [readable, left, still] at ok

/-- A landing does not depend on what `cont` did to the child and `bp_restore` before. -/
theorem Landing.before {n : Nat} {w : World κ} {c : Child κ} {child : Option (Child κ)} {kept : Breakpoint}
    {log : List Effect} {s t : Tracee κ} {bp : Breakpoint} {w' : World κ}
    (h : Landing n { w with child := child, bpRestore := kept, log := log } { c with tracee := s } t bp w') :
    Landing n w c t bp w' := by
  cases h with
  | hit l answer left found => exact .hit l answer left found
  | stop l answer left found => exact .stop l answer left found
  | exited l answer => exact .exited l answer
  | signaled l answer => exact .signaled l answer

theorem cont_ok {w w' : World κ} {c : Child κ} {uninit n : Nat} (h : w.Stopped c)
    (running : w.info.state = .running) (ok : cont uninit n w = .ok () w') :
    ∃ t bp, Launch w c t bp ∧ Landing n w c t bp w' := by
  by_cases here : rip c.tracee.regs = w.bpRestore.addr
  · obtain ⟨l, same⟩ := cont_of_at h running here uninit n
    rw [same, bind_apply] at ok
    cases crossed : stepOver n { w with log := l } with
    | error e v => simp [crossed] at ok
    | ok status v =>
      simp only [crossed] at ok
      obtain ⟨t, l', readable, stepped, still, rfl⟩ := stepOver_ok (h.log l) crossed
      have stopped : World.Stopped
          { w with
            child := some { c with tracee := rearm w.bpRestore c.tracee t }
            bpRestore := .empty
            log := l' }
          { c with tracee := rearm w.bpRestore c.tracee t } := ⟨rfl, h.pid, h.resumed⟩
      exact ⟨_, _, .stepped here readable stepped still, (goOn_ok stopped ok).before⟩
  · obtain ⟨l, same⟩ := cont_of_away h running here uninit n
    rw [same] at ok
    exact ⟨_, _, .away here, (goOn_ok (h.log l) ok).before⟩

/-- Once the debuggee stops or ends again, `cont` comes back. -/
theorem goOn_returns {w : World κ} {c : Child κ} {status n : Nat} {e : Event κ} (h : w.Stopped c)
    (answer : c.prog.resume n c.tracee = some e) : ∃ w', goOn status n w = .ok () w' := by
  obtain ⟨l, same⟩ := goOn_eq h status n
  rw [same, answer]
  cases e with
  | next t | stop sig t =>
    simp only [Event.tracee?]
    cases hit? w.origInstructions t.regs w.info.bpVec <;> exact ⟨_, rfl⟩
  | exited code => exact ⟨_, rfl⟩
  | signaled sig core => exact ⟨_, rfl⟩

/-- Off the breakpoint in `bp_restore`, the rest of `cont` is `PTRACE_CONT` and its wait. -/
theorem cont_of_launch {w : World κ} {c : Child κ} {t : Tracee κ} {bp : Breakpoint}
    (h : w.Stopped c) (running : w.info.state = .running) (launch : Launch w c t bp)
    (uninit n : Nat) : ∃ status l, cont uninit n w = goOn status n
      { w with child := some { c with tracee := t }, bpRestore := bp, log := l } := by
  cases launch with
  | away far =>
    obtain ⟨l, same⟩ := cont_of_away h running far uninit n
    have own := congrArg (fun child => goOn uninit n { w with child := child, log := l }) h.child
    exact ⟨uninit, l, same.trans own⟩
  | @stepped t here readable moved still =>
    obtain ⟨l, same⟩ := cont_of_at h running here uninit n
    obtain ⟨l', crossed⟩ := stepOver_eq (h.log l) n
    refine ⟨(c.prog.step (unarm w.bpRestore c.tracee)).status, l', ?_⟩
    rw [same, bind_apply, crossed]
    simp only [readable, if_true, moved, still]

theorem cont_returns {w : World κ} {c : Child κ} {uninit n : Nat} {t : Tracee κ} {bp : Breakpoint}
    {e : Event κ} (h : w.Stopped c) (running : w.info.state = .running) (launch : Launch w c t bp)
    (answer : c.prog.resume n t = some e) : ∃ w', cont uninit n w = .ok () w' := by
  obtain ⟨status, l, same⟩ := cont_of_launch h running launch uninit n
  rw [same]
  exact goOn_returns (c := { c with tracee := t }) ⟨rfl, h.pid, h.resumed⟩ answer

end Cont

section Start

/-- Only the recorded instructions and the log may differ. -/
def SameButCode (w w' : World κ) : Prop :=
  w' = { w with origInstructions := w'.origInstructions, log := w'.log }

instance : Std.Refl (SameButCode (κ := κ)) := ⟨fun _ => rfl⟩

instance : IsTrans (World κ) SameButCode := ⟨fun _ _ _ h h' => by
  unfold SameButCode at *
  rw [h', h]⟩

theorem getOrigCode_records (host : Host κ) (n : Nat) : Within SameButCode (getOrigCode host n) := by
  have records : Reads (SameButCode (κ := κ)) := .of_emit fun _ => .modify fun _ => rfl
  exact records.getOrigCode (fun _ _ => rfl) host n

/-- `start` came back with the child of a loaded program. -/
inductive Started (host : Host κ) (w : World κ) : World κ → Prop where
  | mk {pid prog} (ins l) : w.info.state = .loaded → host.fork w.forks = some pid →
      host.exec w.info.path = some prog →
      Started host w
        { w with
          info := { w.info with state := .running, pid := pid }
          origInstructions := ins
          child := some ⟨pid, prog, prog.image, none⟩
          forks := w.forks + 1
          log := l }

/-- `start` up to its sweep. -/
theorem start_eq {host : Host κ} {w : World κ} (loaded : w.info.state = .loaded) {pid : Int}
    {prog : Program κ} (forked : host.fork w.forks = some pid)
    (found : host.exec w.info.path = some prog) :
    ∃ l, ∀ n, start host n w = getOrigCode host n
      ⟨{ w.info with state := .running, pid := pid }, w.bpRestore, w.origInstructions,
        some ⟨pid, prog, prog.image, none⟩, w.forks + 1, l⟩ := by
  apply Exists.intro
  intro n
  simp [start, loaded, emit, forked, found, stderr]
  rfl

theorem start_sweeps {host : Host κ} {n : Nat} {w w' : World κ} (loaded : w.info.state = .loaded)
    (ok : start host n w = .ok () w') :
    ∃ pid prog l, host.fork w.forks = some pid ∧ host.exec w.info.path = some prog ∧
      getOrigCode host n
        ⟨{ w.info with state := .running, pid := pid }, w.bpRestore, w.origInstructions,
          some ⟨pid, prog, prog.image, none⟩, w.forks + 1, l⟩ = .ok () w' := by
  cases forked : host.fork w.forks with
  | none => simp [start, loaded, emit, forked, errquit, stderr] at ok
  | some pid =>
    cases found : host.exec w.info.path with
    | none => simp [start, loaded, emit, forked, found] at ok
    | some prog =>
      obtain ⟨l, begun⟩ := start_eq loaded forked found
      exact ⟨pid, prog, l, rfl, rfl, (begun n).symm.trans ok⟩

theorem start_ok {host : Host κ} {n : Nat} {w w' : World κ} (ok : start host n w = .ok () w') :
    w.info.state ≠ .loaded ∧ SameButLog w w' ∨ Started host w w' := by
  by_cases loaded : w.info.state = .loaded
  swap
  · simp only [start, get_apply, bind_apply, if_pos loaded, stderr, emit, modify_apply,
      EStateM.Result.ok.injEq, true_and] at ok
    exact .inl ⟨loaded, ok ▸ rfl⟩
  obtain ⟨pid, prog, l, forked, found, swept⟩ := start_sweeps loaded ok
  have recorded := (getOrigCode_records host n).ok swept
  exact .inr (recorded ▸ .mk _ _ loaded forked found)

theorem findText_bpVec {table : Nat → Byte} {strtab : Nat → Option Byte} {entry : Addr}
    {info info' : ProgInfo} {i n : Nat} (h : findText table strtab entry info i n = some info') :
    info'.bpVec = info.bpVec := by
  induction n generalizing info i with
  | zero =>
    cases h
    rfl
  | succ n ih =>
    rw [findText] at h
    cases named : matchesName strtab (field table (64 * i) 4) textName with
    | none => simp [named] at h
    | some isText =>
      cases isText with
      | false =>
        simp only [named] at h
        exact ih h
      | true =>
        simp only [named] at h
        have kept := ih h
        exact kept

theorem readHeaders_bpVec {junk : Uninit} {file : List Byte} {info info' : ProgInfo}
    (h : readHeaders junk file info = some info') : info'.bpVec = info.bpVec := by
  simp only [readHeaders] at h
  by_cases short : field (fun k => file.getD k 0) 60 2 ≤ field (fun k => file.getD k 0) 62 2
  · rw [if_pos short] at h
    cases h
  · rw [if_neg short] at h
    exact findText_bpVec h

theorem elfRead_ok {host : Host κ} {path : String} {w w' : World κ} {info : ProgInfo}
    (ok : elfRead host path w = .ok info w') : w' = w ∧ info.bpVec = [] := by
  cases opened : host.file path with
  | none => simp [elfRead, opened, stderr, emit] at ok
  | some file =>
    by_cases short : file.length < 64
    · simp [elfRead, opened, short, stderr, emit] at ok
    simp only [elfRead, opened, short, if_false] at ok
    split at ok
    · cases found : readHeaders host.uninit file { ProgInfo.empty with
          pid := host.uninit.pid, entry := host.uninit.entry, size := host.uninit.size } with
      | none => simp [found] at ok
      | some info' =>
        simp only [found, pure_apply, EStateM.Result.ok.injEq] at ok
        exact ⟨ok.2.symm, ok.1 ▸ readHeaders_bpVec found⟩
    · simp only [pure_apply, EStateM.Result.ok.injEq] at ok
      exact ⟨ok.2.symm, ok.1 ▸ rfl⟩

theorem load_ok {host : Host κ} {path : String} {w w' : World κ}
    (ok : load host path w = .ok () w') :
    w.info.state ≠ .noload ∧ SameButLog w w' ∨
    w.info.state = .noload ∧ ∃ info l, info.state = .loaded ∧ info.bpVec = [] ∧
      w' = { w with info := info, log := l } := by
  by_cases idle : w.info.state = .noload
  swap
  · simp only [load, get_apply, bind_apply, ne_eq, idle, not_false_eq_true, if_true, stderr, emit,
      modify_apply, EStateM.Result.ok.injEq, true_and] at ok
    exact .inl ⟨idle, ok ▸ rfl⟩
  refine .inr ⟨idle, ?_⟩
  cases read : elfRead host path w with
  | error e v => simp [load, idle, read] at ok
  | ok info v =>
    obtain ⟨rfl, none_set⟩ := elfRead_ok read
    simp [load, idle, read, stderr, emit] at ok
    exact ⟨{ info with state := .loaded, path := path }, _, rfl, none_set, ok.symm⟩

end Start

section Outcomes

/-- `cont` came back after it had resumed the debuggee. -/
def Continued (n : Nat) (w w' : World κ) : Prop :=
  ∃ c t bp, w.Stopped c ∧ w.info.state = .running ∧ Launch w c t bp ∧ Landing n w c t bp w'

inductive Outcome (host : Host κ) (w : World κ) : Command → World κ → Prop where
  | quiet {cmd w'} : SameButLog w w' → Outcome host w cmd w'
  | planted {c addr code} (l) : w.Stopped c → w.info.state = .running → addr ∉ w.info.addrs →
      peek c.tracee.mem addr = some code →
      Outcome host w (.break addr)
        { w with
          info := { w.info with bpVec := w.info.bpVec ++ [⟨addr, byte code 0⟩] }
          child := some { c with tracee := plant addr c.tracee }
          log := l }
  | removed {c idx bp} (l) : w.Stopped c → w.info.bpVec[bpIndex idx]? = some bp →
      Readable c.tracee.mem bp.addr →
      Outcome host w (.delete idx)
        { w with
          info := { w.info with bpVec := w.info.bpVec.eraseIdx (bpIndex idx) }
          bpRestore := if w.bpRestore.addr = bp.addr then .empty else w.bpRestore
          child := some { c with tracee := unarm bp c.tracee }
          log := l }
  | register {c reg offset val} (l) : w.Stopped c → w.info.state = .running →
      regsOffset.lookup reg = some offset →
      Outcome host w (.set reg val)
        { w with
          child := some { c with
            tracee := { c.tracee with regs := Function.update c.tracee.regs offset val } }
          log := l }
  | stepped {c} (l) : w.Stopped c → w.info.state = .running →
      Outcome host w .si
        { w with
          child := (c.prog.step c.tracee).tracee?.map fun t => { c with tracee := t }
          log := l }
  | continued {n w'} : Continued n w w' → Outcome host w .cont w'
  | resumed {n w'} : Continued n w w' → Outcome host w .run w'
  | loaded {path info} (l) : w.info.state = .noload → info.state = .loaded → info.bpVec = [] →
      Outcome host w (.load path) { w with info := info, log := l }
  | started {w'} : Started host w w' → Outcome host w .start w'
  | ran {n w₁ w'} : start host n w = .ok () w₁ → Started host w w₁ → Continued n w₁ w' →
      Outcome host w .run w'

variable {host : Host κ} {n : Nat} {w w' : World κ}

theorem World.Tidy.stopped (h : w.Tidy) {c : Child κ} (alive : w.child = some c) : w.Stopped c :=
  (h.child c alive).1

/-- Outside `RUNNING` the commands that need it only say so. -/
theorem refused {msg : String} {body : World κ → Cmd κ Unit} (idle : w.info.state ≠ .running)
    (ok : (get >>= fun v => if v.info.state ≠ .running then stderr msg else body v) w = .ok () w') :
    SameButLog w w' := by
  simp only [get_apply, bind_apply, ne_eq, idle, not_false_eq_true, if_true] at ok
  exact (quiet.stderr msg).ok ok

/-- A `break` that comes back had its address listed already or has planted it. -/
theorem setBp_ok (h : w.Tidy) (running : w.info.state = .running) {addr : Addr}
    (ok : setBp addr w = .ok () w') :
    addr ∈ w.info.addrs ∧ SameButLog w w' ∨
      ∃ c code l, w.Stopped c ∧ addr ∉ w.info.addrs ∧ peek c.tracee.mem addr = some code ∧
        w' = { w with
          info := { w.info with bpVec := w.info.bpVec ++ [⟨addr, byte code 0⟩] }
          child := some { c with tracee := plant addr c.tracee }
          log := l } := by
  cases alive : w.child with
  | none =>
    obtain ⟨l, same⟩ := setBp_of_gone alive running addr
    rw [same] at ok
    by_cases known : addr ∈ w.info.addrs
    · simp only [known, if_true, EStateM.Result.ok.injEq, true_and] at ok
      exact .inl ⟨known, ok ▸ rfl⟩
    · simp [known] at ok
  | some c =>
    obtain ⟨l, same⟩ := setBp_eq (h.stopped alive) running addr
    rw [same] at ok
    by_cases known : addr ∈ w.info.addrs
    · simp only [known, if_true, EStateM.Result.ok.injEq, true_and] at ok
      exact .inl ⟨known, ok ▸ rfl⟩
    cases read : peek c.tracee.mem addr with
    | none => simp [known, read] at ok
    | some code =>
      simp only [known, if_false, read, EStateM.Result.ok.injEq, true_and] at ok
      exact .inr ⟨c, code, l, h.stopped alive, known, read, ok.symm⟩

theorem setBp_outcome (h : w.Tidy) {addr : Addr} (ok : setBp addr w = .ok () w') :
    Outcome host w (.break addr) w' := by
  by_cases running : w.info.state = .running
  swap
  · exact .quiet (refused running ok)
  obtain ⟨-, same⟩ | ⟨c, code, l, stopped, new, read, rfl⟩ := setBp_ok h running ok
  · exact .quiet same
  · exact .planted l stopped running new read

theorem delBp_outcome (h : w.Tidy) {idx : Int} (ok : delBp idx w = .ok () w') :
    Outcome host w (.delete idx) w' := by
  cases found : w.info.bpVec[bpIndex idx]? with
  | none =>
    simp [delBp, found, stderr, emit] at ok
    exact .quiet (ok ▸ rfl)
  | some bp =>
    cases alive : w.child with
    | none =>
      obtain ⟨l, same⟩ := delBp_of_gone alive found
      rw [same] at ok
      cases ok
    | some c =>
      obtain ⟨l, same⟩ := delBp_eq (h.stopped alive) found
      rw [same] at ok
      by_cases readable : Readable c.tracee.mem bp.addr
      · simp only [readable, if_true, EStateM.Result.ok.injEq, true_and] at ok
        exact ok ▸ .removed l (h.stopped alive) found readable
      · simp [readable] at ok

theorem setReg_outcome (h : w.Tidy) {reg : String} {val : BitVec 64}
    (ok : setReg reg val w = .ok () w') : Outcome host w (.set reg val) w' := by
  by_cases running : w.info.state = .running
  swap
  · exact .quiet (refused running ok)
  cases alive : w.child with
  | none =>
    obtain ⟨l, same⟩ := setReg_of_gone alive running reg val
    rw [same] at ok
    cases ok
  | some c =>
    obtain ⟨l, same⟩ := setReg_eq (h.stopped alive) running reg val
    rw [same] at ok
    cases found : regsOffset.lookup reg with
    | none =>
      simp only [found, EStateM.Result.ok.injEq, true_and] at ok
      exact .quiet (ok ▸ rfl)
    | some offset =>
      simp only [found, EStateM.Result.ok.injEq, true_and] at ok
      exact ok ▸ .register l (h.stopped alive) running found

theorem si_outcome (h : w.Tidy) (ok : si n w = .ok () w') : Outcome host w .si w' := by
  by_cases running : w.info.state = .running
  swap
  · exact .quiet (refused running ok)
  cases alive : w.child with
  | none =>
    obtain ⟨l, same⟩ := si_of_gone alive running n
    rw [same] at ok
    cases ok
  | some c =>
    obtain ⟨l, same⟩ := si_eq (h.stopped alive) running n
    rw [same] at ok
    simp only [EStateM.Result.ok.injEq, true_and] at ok
    exact ok ▸ .stepped l (h.stopped alive) running

theorem cont_continued (h : w.Tidy) (running : w.info.state = .running) {uninit : Nat}
    (ok : cont uninit n w = .ok () w') : Continued n w w' := by
  cases alive : w.child with
  | none =>
    obtain ⟨l, same⟩ := cont_of_gone alive running uninit n
    rw [same] at ok
    cases ok
  | some c =>
    obtain ⟨t, bp, launch, landing⟩ := cont_ok (h.stopped alive) running ok
    exact ⟨c, t, bp, h.stopped alive, running, launch, landing⟩

theorem cont_outcome (h : w.Tidy) {uninit : Nat} (ok : cont uninit n w = .ok () w') :
    SameButLog w w' ∨ Continued n w w' := by
  by_cases running : w.info.state = .running
  · exact .inr (cont_continued h running ok)
  · exact .inl (refused running ok)

theorem Continued.before {l : List Effect} (h : Continued n { w with log := l } w') :
    Continued n w w' := by
  obtain ⟨c, t, bp, stopped, running, launch, landing⟩ := h
  exact ⟨c, t, bp, ⟨stopped.child, stopped.pid, stopped.resumed⟩, running, launch.congr rfl,
    landing.before⟩

theorem Started.stopped {w₁ : World κ} (h : Started host w w₁) :
    ∃ c, w₁.Stopped c ∧ w₁.info.state = .running := by
  obtain ⟨ins, l, -, forked, found⟩ := h
  exact ⟨_, ⟨rfl, rfl, rfl⟩, rfl⟩

theorem Started.fresh {w₁ : World κ} (h : Started host w w₁) :
    ∃ c, w₁.child = some c ∧ host.exec w.info.path = some c.prog ∧ c.tracee = c.prog.image ∧
      w₁.bpRestore = w.bpRestore ∧ w₁.info.bpVec = w.info.bpVec := by
  obtain ⟨ins, l, -, -, found⟩ := h
  exact ⟨_, rfl, found, rfl, rfl, rfl⟩

theorem Started.tidy {w₁ : World κ} (h : Started host w w₁) : w₁.Tidy := by
  obtain ⟨c, stopped, running⟩ := h.stopped
  refine ⟨fun c' alive => ?_, fun idle => absurd running idle⟩
  obtain rfl : c = c' := Option.some.inj (stopped.child.symm.trans alive)
  exact ⟨stopped, running⟩

theorem runProgram_continued (h : w.Tidy) (running : w.info.state = .running)
    (ok : runProgram host n w = .ok () w') : Continued n w w' := by
  simp only [runProgram, bind_apply, get_apply, running, stderr, emit, modify_apply] at ok
  have went (l : List Effect) : cont host.uninit.status n { w with log := l } = .ok () w' →
      Continued n w w' := fun ok =>
    Continued.before (cont_continued (w := { w with log := l }) (h.quiet rfl) running ok)
  exact went _ ok

theorem runProgram_outcome (h : w.Tidy) (ok : runProgram host n w = .ok () w') :
    Outcome host w .run w' := by
  cases state : w.info.state with
  | noload =>
    simp only [runProgram, bind_apply, get_apply, state] at ok
    exact .quiet ((quiet.stderr _).ok ok)
  | running => exact .resumed (runProgram_continued h state ok)
  | loaded =>
    simp only [runProgram, bind_apply, get_apply, state] at ok
    cases begun : start host n w with
    | error e v => simp [begun] at ok
    | ok u v =>
      simp only [begun] at ok
      obtain ⟨idle, -⟩ | started := start_ok begun
      · exact absurd state idle
      obtain ⟨c, -, running⟩ := started.stopped
      exact .ran begun started (cont_continued started.tidy running ok)

/-- Every command that comes back has one of the outcomes. -/
theorem exec_outcome (h : w.Tidy) {cmd : Command} (ok : exec host n cmd w = .ok () w') :
    Outcome host w cmd w' := by
  cases cmd with
  | «break» addr => exact setBp_outcome h ok
  | cont => exact (cont_outcome h ok).elim .quiet .continued
  | delete idx => exact delBp_outcome h ok
  | disasm addr => exact .quiet ((quiet.disasm host addr).ok ok)
  | dump addr => exact .quiet ((quiet.dump addr).ok ok)
  | exit => cases ok
  | get reg => exact .quiet ((quiet.printReg reg).ok ok)
  | getregs => exact .quiet (quiet.printAllRegs.ok ok)
  | help => exact .quiet (quiet.help.ok ok)
  | list => exact .quiet (quiet.listBp.ok ok)
  | load path =>
    obtain ⟨-, same⟩ | ⟨idle, info, l, loaded, none_set, rfl⟩ := load_ok ok
    · exact .quiet same
    · exact .loaded l idle loaded none_set
  | run => exact runProgram_outcome h ok
  | vmmap => exact .quiet ((quiet.vmmap host).ok ok)
  | set reg val => exact setReg_outcome h ok
  | si => exact si_outcome h ok
  | start =>
    obtain ⟨-, same⟩ | started := start_ok ok
    · exact .quiet same
    · exact .started started
  | unknown => exact .quiet ((quiet.stderr _).ok ok)

/-- Where a debuggee that `cont` reports or stops on can be. -/
theorem Continued.tidy (h : Continued n w w') : w'.Tidy := by
  obtain ⟨c, t, bp, stopped, running, -, landing⟩ := h
  cases landing with
  | hit l =>
    refine ⟨?_, fun idle => absurd running idle⟩
    rintro _ ⟨⟩
    exact ⟨⟨rfl, stopped.pid, stopped.resumed⟩, running⟩
  | stop l =>
    refine ⟨?_, fun idle => absurd running idle⟩
    rintro _ ⟨⟩
    exact ⟨⟨rfl, stopped.pid, stopped.resumed⟩, running⟩
  | exited l => exact ⟨fun c' alive => (by cases alive), fun _ => rfl⟩
  | signaled l => exact ⟨fun c' alive => (by cases alive), fun idle => absurd running idle⟩

/-- Worlds with a stopped child in the `RUNNING` state. -/
theorem World.Tidy.of_stopped {c : Child κ} (stopped : w.Stopped c) (running : w.info.state = .running) :
    w.Tidy := by
  refine ⟨fun c' alive => ?_, fun idle => absurd running idle⟩
  obtain rfl : c = c' := Option.some.inj (stopped.child.symm.trans alive)
  exact ⟨stopped, running⟩

theorem Outcome.tidy {cmd : Command} (h : w.Tidy) (out : Outcome host w cmd w') : w'.Tidy := by
  cases out with
  | quiet same => exact h.quiet same
  | planted l stopped running => exact .of_stopped ⟨rfl, stopped.pid, stopped.resumed⟩ running
  | removed l stopped found =>
    exact .of_stopped ⟨rfl, stopped.pid, stopped.resumed⟩ (h.child _ stopped.child).2
  | register l stopped running => exact .of_stopped ⟨rfl, stopped.pid, stopped.resumed⟩ running
  | @stepped c l stopped running =>
    refine ⟨fun c' alive => ?_, fun idle => absurd running idle⟩
    obtain ⟨t, -, rfl⟩ := Option.map_eq_some_iff.mp alive
    exact ⟨⟨alive, stopped.pid, stopped.resumed⟩, running⟩
  | continued went => exact went.tidy
  | resumed went => exact went.tidy
  | loaded l idle loaded none_set =>
    refine ⟨fun c alive => ?_, fun _ => none_set⟩
    have idle' := (h.child c alive).2
    rw [idle] at idle'
    cases idle'
  | started begun => exact begun.tidy
  | ran _ begun went => exact went.tidy

theorem Continued.not_loaded (went : Continued n w w') : w'.info.state ≠ .loaded := by
  obtain ⟨c, t, bp, -, running, -, landing⟩ := went
  have busy : w.info.state ≠ .loaded := by simp [running]
  cases landing with
  | hit l => exact busy
  | stop l => exact busy
  | exited l => exact fun loaded => by cases loaded
  | signaled l => exact busy

/-- Only `load` leads to the `LOADED` state. -/
theorem Outcome.loads {cmd : Command} (tidy : w.Tidy) (out : Outcome host w cmd w') (loaded : w'.info.state = .loaded) :
    w'.info = w.info ∨ ∃ path, cmd = .load path ∧ w.info.state = .noload := by
  cases out with
  | quiet same => exact .inl (by rw [same])
  | planted l _ running => exact absurd loaded (by simp [running])
  | removed l stopped =>
    have running := (tidy.child _ stopped.child).2
    exact absurd loaded (by simp [running])
  | register l => exact .inl rfl
  | stepped l => exact .inl rfl
  | continued went => exact absurd loaded went.not_loaded
  | resumed went => exact absurd loaded went.not_loaded
  | loaded l idle => exact .inr ⟨_, rfl, idle⟩
  | started begun =>
    obtain ⟨ins, l⟩ := begun
    cases loaded
  | ran _ _ went => exact absurd loaded went.not_loaded

theorem World.init_tidy (host : Host κ) : (World.init host).Tidy :=
  ⟨fun c alive => (by cases alive), fun _ => rfl⟩

theorem Step.outcome {cmd : Command} (h : w.Tidy) (step : Step host cmd w w') :
    Outcome host w cmd w' := step.elim fun _ ok => exec_outcome h ok

theorem Step.tidy {cmd : Command} (h : w.Tidy) (step : Step host cmd w w') : w'.Tidy :=
  (step.outcome h).tidy h

theorem Reachable.tidy (h : Reachable host w) : w.Tidy := by
  obtain ⟨cs, run⟩ := h
  exact run.invariant (fun _ _ _ tidy step => step.tidy tidy) (World.init_tidy host)

end Outcomes

end UnixProgramming.Sdb
