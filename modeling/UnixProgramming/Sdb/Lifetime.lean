import UnixProgramming.Sdb.Sample

/-!
# The end of the debuggee

A debuggee can end in the single step with which `cont` leaves a breakpoint, after
`PTRACE_CONT`, or in `si`. Only an exit that is seen after `PTRACE_CONT` resets the
state, only with code 0 does the report show the exit code, and even then
`bp_restore` keeps what it was.
-/

namespace UnixProgramming.Sdb

open Memory Transition Stateful

variable {κ : Type}

section Ends

/-- The `waitpid` that sees an end. -/
inductive Site where
  | stepOver
  | resume
  | si
  deriving DecidableEq

/-- The debuggee `c` ends with `e` during `cont`. -/
inductive ContEnds (n : Nat) (w : World κ) (c : Child κ) : Site → Event κ → Prop where
  | stepOver {e} : w.Stopped c → rip c.tracee.regs = w.bpRestore.addr →
      Readable c.tracee.mem w.bpRestore.addr → c.prog.step (unarm w.bpRestore c.tracee) = e →
      e.tracee? = none → ContEnds n w c .stepOver e
  | resume {t bp e} : w.Stopped c → Launch w c t bp → c.prog.resume n t = some e →
      e.tracee? = none → ContEnds n w c .resume e

/-- The debuggee `c` ends with `e` during the command. -/
inductive Ends (host : Host κ) (n : Nat) (w : World κ) : Command → Child κ → Site → Event κ → Prop where
  | si {c e} : w.Stopped c → w.info.state = .running → c.prog.step c.tracee = e →
      e.tracee? = none → Ends host n w .si c .si e
  | cont {c site e} : w.info.state = .running → ContEnds n w c site e → Ends host n w .cont c site e
  | run {c site e} : w.info.state = .running → ContEnds n w c site e → Ends host n w .run c site e
  | fresh {w₁ c site e} : w.info.state = .loaded → start host n w = .ok () w₁ →
      ContEnds n w₁ c site e → Ends host n w .run c site e

/-- What the user should read about an end. -/
def report (pid : Int) : Event κ → Option String
  | .exited code => some (terminatedNormally pid code.toNat)
  | .signaled sig _ => some (terminatedBySignal pid sig)
  | _ => none

/-- The debugger is back in its loop, reported the end last, and is in its first state. -/
def Settled (c : Child κ) (e : Event κ) (result : EStateM.Result Halt (World κ) Unit) : Prop :=
  ∃ w' text, result = .ok () w' ∧ w'.child = none ∧ w'.info.state = .noload ∧ w'.info.bpVec = [] ∧
    report c.pid e = some text ∧ ∃ l, w'.log = .stderr text :: l

variable {host : Host κ} {n : Nat} {w w' : World κ} {c : Child κ} {site : Site} {e : Event κ}

theorem goOn_settled (status : Nat) (h : w.Stopped c) (running : w.info.state = .running)
    (answer : c.prog.resume n c.tracee = some e) (gone : e.tracee? = none) :
    Settled c e (goOn status n w) ↔ e = .exited 0 := by
  obtain ⟨l, same⟩ := goOn_eq h status n
  rw [same, answer]
  cases e with
  | next t => cases gone
  | stop sig t => cases gone
  | exited code =>
    simp only [Event.tracee?]
    constructor
    · rintro ⟨w', text, ok, -, -, -, said, l', logged⟩
      cases ok
      obtain ⟨shown, -⟩ := List.cons.inj logged
      have wanted : terminatedNormally c.pid code.toNat = text := Option.some.inj said
      rw [← wanted, h.pid, Effect.stderr.injEq, terminatedNormally_inj] at shown
      have zero : code.toNat = 0 := by omega
      rw [BitVec.eq_of_toNat_eq (y := 0) zero]
    · rintro ⟨⟩
      exact ⟨_, _, rfl, rfl, rfl, rfl, congrArg (fun pid => some (terminatedNormally pid 0)) h.pid,
        l, rfl⟩
  | signaled sig core =>
    simp only [Event.tracee?]
    constructor
    · rintro ⟨w', text, ok, -, state, -⟩
      cases ok
      rw [running] at state
      cases state
    · rintro ⟨⟩

theorem cont_settled {uninit : Nat} (running : w.info.state = .running)
    (ends : ContEnds n w c site e) :
    Settled c e (cont uninit n w) ↔ site = .resume ∧ e = .exited 0 := by
  cases ends with
  | stepOver h here readable ended gone =>
    obtain ⟨l, same⟩ := cont_of_at h running here uninit n
    obtain ⟨l', crossed⟩ := stepOver_eq (h.log l) n
    rw [same, bind_apply, crossed]
    simp only [readable, if_true, ended, gone]
    constructor
    · rintro ⟨w', text, ok, -⟩
      cases ok
    · rintro ⟨⟨⟩, -⟩
  | @resume t bp e h launch answer gone =>
    simp only [true_and]
    obtain ⟨status, l, same⟩ := cont_of_launch h running launch uninit n
    rw [same]
    exact goOn_settled (c := { c with tracee := t }) status ⟨rfl, h.pid, h.resumed⟩ running
      answer gone

theorem ContEnds.log (h : ContEnds n w c site e) (l : List Effect) :
    ContEnds n { w with log := l } c site e := by
  cases h with
  | stepOver stopped here readable ended gone =>
    exact .stepOver (stopped.log l) here readable ended gone
  | resume stopped launch answer gone => exact .resume (stopped.log l) (launch.congr rfl) answer gone

/-- An end is settled by its command exactly if it is an exit with code 0 after `PTRACE_CONT`. -/
theorem exec_settled {cmd : Command} (ends : Ends host n w cmd c site e) :
    Settled c e (exec host n cmd w) ↔ site = .resume ∧ e = .exited 0 := by
  cases ends with
  | si h running ended gone =>
    obtain ⟨l, same⟩ := si_eq h running n
    rw [exec, same]
    constructor
    · rintro ⟨w', text, ok, -, state, -⟩
      cases ok
      rw [running] at state
      cases state
    · rintro ⟨⟨⟩, -⟩
  | cont running ends => exact cont_settled running ends
  | run running ends =>
    rw [exec, runProgram]
    simp only [bind_apply, get_apply, running, stderr, emit, modify_apply]
    exact cont_settled (w := { w with log := _ }) running (ends.log _)
  | @fresh w₁ _ _ _ loaded begun ends =>
    rw [exec, runProgram]
    simp only [bind_apply, get_apply, loaded, begun]
    obtain ⟨idle, -⟩ | started := start_ok begun
    · exact absurd loaded idle
    obtain ⟨c₁, -, running⟩ := started.stopped
    exact cont_settled running ends

end Ends

section Runs

variable {host : Host κ} {cmd : Command} {w w' : World κ}

/-- If the debuggee ends during the command, it exits with code 0 after `PTRACE_CONT`. -/
def EndsWell (host : Host κ) (w : World κ) (cmd : Command) : Prop :=
  ∀ n c site e, Ends host n w cmd c site e → site = .resume ∧ e = .exited 0

theorem Continued.alive {n : Nat} (went : Continued n w w')
    (well : ∀ c site e, ContEnds n w c site e → site = .resume ∧ e = .exited 0) :
    w'.info.state = .running → w'.child.isSome := by
  obtain ⟨c, t, bp, stopped, running, launch, landing⟩ := went
  cases landing with
  | hit => exact fun _ => rfl
  | stop => exact fun _ => rfl
  | exited => exact fun still => by cases still
  | signaled l answer =>
    obtain ⟨-, no⟩ := well c .resume _ (.resume stopped launch answer rfl)
    cases no

theorem Outcome.alive (h : w.info.state = .running → w.child.isSome)
    (out : Outcome host w cmd w') (well : EndsWell host w cmd) :
    w'.info.state = .running → w'.child.isSome := by
  cases out with
  | quiet same =>
    rw [same]
    exact h
  | planted => exact fun _ => rfl
  | removed => exact fun _ => rfl
  | register => exact fun _ => rfl
  | @stepped c l stopped running =>
    intro _
    cases left : (c.prog.step c.tracee).tracee? with
    | some t => rfl
    | none =>
      obtain ⟨no, -⟩ := well 0 c .si _ (.si stopped running rfl left)
      cases no
  | @continued n _ went =>
    have running := went.elim fun _ ⟨_, _, _, running, _⟩ => running
    exact went.alive fun c site e ends => well n c site e (.cont running ends)
  | @resumed n _ went =>
    have running := went.elim fun _ ⟨_, _, _, running, _⟩ => running
    exact went.alive fun c site e ends => well n c site e (.run running ends)
  | loaded l idle loaded =>
    intro running
    rw [loaded] at running
    cases running
  | started begun =>
    obtain ⟨ins, l⟩ := begun
    exact fun _ => rfl
  | @ran n w₁ _ came_back begun went =>
    have loaded : w.info.state = .loaded := by
      obtain ⟨ins, l, loaded⟩ := begun
      exact loaded
    exact went.alive fun c site e ends => well n c site e (.fresh loaded came_back ends)

/-- In every run in which the debuggee ends only by exiting with code 0 after
`PTRACE_CONT`, the state is `RUNNING` exactly while there is a debuggee; and a command
settles an end exactly if it is one of this kind. -/
theorem lifetime_tracked {cs : List Command}
    (run : Run (fun cmd w w' => Step host cmd w w' ∧ EndsWell host w cmd) cs (World.init host) w) :
    (w.info.state = .running ↔ w.child.isSome) ∧
    ∀ n cmd c site e, Ends host n w cmd c site e →
      (Settled c e (exec host n cmd w) ↔ site = .resume ∧ e = .exited 0) := by
  have kept := run.invariant
    (I := fun w => w.Tidy ∧ (w.info.state = .running → w.child.isSome))
    (fun cmd w w' ⟨tidy, alive⟩ ⟨step, well⟩ =>
      ⟨step.tidy tidy, (step.outcome tidy).alive alive well⟩)
    ⟨World.init_tidy host, fun running => by cases running⟩
  refine ⟨⟨kept.2, fun lives => ?_⟩, fun n cmd c site e ends => exec_settled ends⟩
  obtain ⟨c, alive⟩ := Option.isSome_iff_exists.mp lives
  exact (kept.1.child c alive).2

end Runs

section Restore

variable {host : Host κ} {cmd : Command} {w w' : World κ}

/-- `bp_restore`, if it is set, is a breakpoint of the list. -/
def Listed (w : World κ) : Prop := w.bpRestore.addr ≠ 0 → w.bpRestore ∈ w.info.bpVec

/-- The debuggee exits before `cont` has stepped off the breakpoint in `bp_restore`. -/
def Abandons (w : World κ) (cmd : Command) : Prop :=
  (cmd = .cont ∨ cmd = .run) ∧ w.info.state = .running ∧ w.bpRestore.addr ≠ 0 ∧
    ∃ n c code, w.Stopped c ∧ rip c.tracee.regs ≠ w.bpRestore.addr ∧
      c.prog.resume n c.tracee = some (.exited code)

theorem Continued.listed_iff {n : Nat} (h : Listed w) (went : Continued n w w')
    (resumed : cmd = .cont ∨ cmd = .run) : Listed w' ↔ ¬ Abandons w cmd := by
  obtain ⟨c, t, bp, stopped, running, launch, landing⟩ := went
  have kept : bp.addr ≠ 0 → bp ∈ w.info.bpVec := by
    cases launch with
    | away => exact h
    | stepped => exact fun armed => absurd rfl armed
  have stays {e : Event κ} {t' : Tracee κ} (answer : c.prog.resume n t = some e)
      (left : e.tracee? = some t') : ¬ Abandons w cmd := by
    rintro ⟨-, -, -, n', c', code, stopped', far, answer'⟩
    obtain rfl := Option.some.inj (stopped.child.symm.trans stopped'.child)
    obtain ⟨rfl, -⟩ := launch.unique (.away far)
    rw [Program.resume_unique answer answer'] at left
    cases left
  cases landing with
  | hit l answer left found =>
    exact iff_of_true (fun _ => List.mem_of_find?_eq_some found) (stays answer left)
  | stop l answer left found => exact iff_of_true kept (stays answer left)
  | signaled l answer =>
    refine iff_of_true kept ?_
    rintro ⟨-, -, -, n', c', code, stopped', far, answer'⟩
    obtain rfl := Option.some.inj (stopped.child.symm.trans stopped'.child)
    obtain ⟨rfl, -⟩ := launch.unique (.away far)
    cases Program.resume_unique answer answer'
  | exited l answer =>
    constructor
    · rintro listed ⟨-, -, armed, n', c', code', stopped', far, -⟩
      obtain rfl := Option.some.inj (stopped.child.symm.trans stopped'.child)
      obtain ⟨-, rfl⟩ := launch.unique (.away far)
      cases listed armed
    · intro holds armed
      cases launch with
      | away far => exact absurd ⟨resumed, running, armed, n, c, _, stopped, far, answer⟩ holds
      | stepped => exact absurd rfl armed

/-- Before the program runs there are no breakpoints, and none to go back to. -/
theorem Listed.unarmed (tidy : w.Tidy) (h : Listed w) (idle : w.info.state ≠ .running) :
    w.bpRestore.addr = 0 := by
  by_contra armed
  have listed := h armed
  rw [tidy.idle idle] at listed
  cases listed

theorem Step.listed_iff (tidy : w.Tidy) (h : Listed w) (step : Step host cmd w w') :
    Listed w' ↔ ¬ Abandons w cmd := by
  by_cases resumed : (cmd = .cont ∨ cmd = .run) ∧ w.info.state = .running
  · obtain ⟨which, running⟩ := resumed
    obtain ⟨n, ok⟩ := step
    obtain rfl | rfl := which
    · exact (cont_continued tidy running ok).listed_iff h (.inl rfl)
    · exact (runProgram_continued tidy running ok).listed_iff h (.inr rfl)
  refine iff_of_true ?_ fun ⟨which, running, _⟩ => resumed ⟨which, running⟩
  cases step.outcome tidy with
  | quiet same =>
    rw [same]
    exact h
  | planted l stopped => exact fun armed => List.mem_append_left _ (h armed)
  | @removed c idx bp l stopped found =>
    intro armed
    dsimp only at armed ⊢
    split at armed
    · exact absurd rfl armed
    · next other =>
      rw [if_neg other]
      exact mem_eraseIdx_of_ne found (h armed) other
  | register => exact h
  | stepped => exact h
  | continued went =>
    obtain ⟨-, -, -, -, running, -⟩ := went
    exact absurd ⟨.inl rfl, running⟩ resumed
  | resumed went =>
    obtain ⟨-, -, -, -, running, -⟩ := went
    exact absurd ⟨.inr rfl, running⟩ resumed
  | loaded l noload =>
    exact fun armed => absurd (h.unarmed tidy (by rw [noload]; exact RunState.noConfusion)) armed
  | started begun =>
    obtain ⟨ins, l, loaded⟩ := begun
    exact fun armed => absurd (h.unarmed tidy (by rw [loaded]; exact RunState.noConfusion)) armed
  | ran came_back begun went =>
    have loaded : w.info.state = .loaded := by
      obtain ⟨ins, l, loaded⟩ := begun
      exact loaded
    have unarmed := h.unarmed tidy (by rw [loaded]; exact RunState.noConfusion)
    obtain ⟨c, -, -, -, same, -⟩ := begun.fresh
    rw [← same] at unarmed
    exact (went.listed_iff (fun armed => absurd unarmed armed) (.inr rfl)).mpr
      fun ⟨_, _, armed, _⟩ => armed unarmed

/-- What `cont` writes when it leaves a breakpoint of the list. -/
def WritesListed (w : World κ) (c : Child κ) (t : Tracee κ) : Prop :=
  ∃ bp ∈ w.info.bpVec, ∃ t₁, (c.prog.step (unarm bp c.tracee)).tracee? = some t₁ ∧
    t = rearm bp c.tracee t₁

/-- In every run in which the debuggee never exits from a `cont` that found it elsewhere
than at the breakpoint in `bp_restore`, `bp_restore` is listed whenever it is set, so
that `cont` puts back saved bytes and plants `int3` only for listed breakpoints. The
next command keeps this exactly if it does not abandon `bp_restore`. -/
theorem bpRestore_listed {cs : List Command}
    (run : Run (fun cmd w w' => Step host cmd w w' ∧ ¬ Abandons w cmd) cs (World.init host) w) :
    Listed w ∧
    (∀ c t bp, w.Stopped c → c.tracee.mem 0 = none → Launch w c t bp →
      t = c.tracee ∨ WritesListed w c t) ∧
    ∀ cmd w', Step host cmd w w' → (Listed w' ↔ ¬ Abandons w cmd) := by
  obtain ⟨tidy, listed⟩ := run.invariant (I := fun w => w.Tidy ∧ Listed w)
    (fun cmd w w' ⟨tidy, listed⟩ ⟨step, holds⟩ =>
      ⟨step.tidy tidy, (step.listed_iff tidy listed).mpr holds⟩)
    ⟨World.init_tidy host, fun armed => absurd rfl armed⟩
  refine ⟨listed, fun c t bp stopped null launch => ?_, fun cmd w' step => step.listed_iff tidy listed⟩
  cases launch with
  | away => exact .inl rfl
  | stepped here readable moved =>
    refine .inr ⟨w.bpRestore, listed fun zero => ?_, _, moved, rfl⟩
    have mapped := readable.self
    rw [zero, null] at mapped
    cases mapped

end Restore

section Quit

open Sample

/-- `nop`, and then `exit(code)`. -/
def quit (code : Byte) : List Byte :=
  [0x90, 0xbf, code, 0x00, 0x00, 0x00, 0xb8, 0x3c, 0x00, 0x00, 0x00, 0x0f, 0x05]

theorem quit_exits : (sample (quit 0)).resume 4 (image (quit 0)) = some (.exited 0) := by
  rfl

theorem lifetime_tracked_quit : ∃ w c, Reachable (host (quit 0)) w ∧
    (w.info.state = .running ↔ w.child.isSome) ∧
    Ends (host (quit 0)) 4 w .cont c .resume (.exited 0) ∧
    Settled c (.exited 0) (exec (host (quit 0)) 4 .cont w) := by
  have comes_back : (session (host (quit 0)) 40 [.load "quit", .start]).isSome := by decide +kernel
  obtain ⟨w, ended⟩ := Option.isSome_iff_exists.mp comes_back
  have reached : Reachable (host (quit 0)) w := ⟨_, run_of_session ended⟩
  have run : Run (fun cmd w w' => Step (host (quit 0)) cmd w w' ∧ EndsWell (host (quit 0)) w cmd)
      [.load "quit", .start] (World.init (host (quit 0))) w := by
    refine (run_of_session ended).mono fun cmd listed v v' step => ⟨step, fun n c site e ends => ?_⟩
    cases ends <;> simp at listed
  obtain ⟨tracked, settled⟩ := lifetime_tracked run
  obtain ⟨-, w₀, c, -, -, -, clear, born, own, untouched, rest⟩ := run_start (run_of_session ended)
  cases rest
  obtain ⟨stopped, running⟩ := reached.tidy.child c born
  have far : rip c.tracee.regs ≠ w.bpRestore.addr := by
    rw [untouched, clear]
    decide
  have answer : c.prog.resume 4 c.tracee = some (.exited 0) := by
    rw [own, untouched]
    exact quit_exits
  have ends : Ends (host (quit 0)) 4 w .cont c .resume (.exited 0) :=
    .cont running (.resume stopped (.away far) answer rfl)
  exact ⟨w, c, reached, tracked, ends, (settled _ _ _ _ _ ends).mpr ⟨rfl, rfl⟩⟩

/-- The third step in `si` ends the debuggee, and the state stays `RUNNING`. -/
theorem si_loses_end : ∃ w, Reachable (host (quit 0)) w ∧ w.info.state = .running ∧ w.child = none := by
  have summary : (session (host (quit 0)) 40 [.load "quit", .start, .si, .si, .si, .si]).map
      (fun w => (w.info.state, w.child.isNone)) = some (.running, true) := by
    decide +kernel
  obtain ⟨w, ended, facts⟩ := Option.map_eq_some_iff.mp summary
  simp only [Prod.mk.injEq, Option.isNone_iff_eq_none] at facts
  exact ⟨w, ⟨_, run_of_session ended⟩, facts⟩

theorem bpRestore_listed_quit : ∃ w, Reachable (host (quit 0)) w ∧
    w.bpRestore = ⟨0x401ff3, 0x90⟩ ∧ w.bpRestore ∈ w.info.bpVec := by
  have summary : ((session (host (quit 0)) 40 [.load "quit", .start, .break 0x401ff3]).bind fun w =>
      (next? (host (quit 0)) 40 .cont w).map fun w' => (w.bpRestore, w'.bpRestore)) =
      some (.empty, ⟨0x401ff3, 0x90⟩) := by
    decide +kernel
  obtain ⟨w, ended, rest⟩ := Option.bind_eq_some_iff.mp summary
  obtain ⟨w', went, facts⟩ := Option.map_eq_some_iff.mp rest
  obtain ⟨unset, set⟩ := Prod.mk.inj facts
  have first : Run (fun cmd w w' => Step (host (quit 0)) cmd w w' ∧ ¬ Abandons w cmd)
      [.load "quit", .start, .break 0x401ff3] (World.init (host (quit 0))) w := by
    refine (run_of_session ended).mono fun cmd listed v v' step => ⟨step, fun ⟨which, _⟩ => ?_⟩
    obtain rfl | rfl := which <;> simp at listed
  have step : Step (host (quit 0)) .cont w w' := ⟨40, exec_of_next? went⟩
  have run := first.snoc ⟨step, fun ⟨_, _, armed, _⟩ => by
    rw [unset] at armed
    exact armed rfl⟩
  obtain ⟨listed, -, -⟩ := bpRestore_listed run
  refine ⟨w', ⟨_, (run_of_session ended).snoc step⟩, set, listed ?_⟩
  rw [set]
  decide

/-- `cont` reports the breakpoint on the `nop`, `si` leaves it, the program exits: the
breakpoint stays in `bp_restore`. -/
theorem cont_leaks_bpRestore : ∃ w, Reachable (host (quit 0)) w ∧ w.info.bpVec = [] ∧
    w.bpRestore = ⟨0x401ff3, 0x90⟩ := by
  have summary : (session (host (quit 0)) 40
      [.load "quit", .start, .break 0x401ff3, .cont, .si, .cont]).map
      (fun w => (w.info.bpVec, w.bpRestore)) = some ([], ⟨0x401ff3, 0x90⟩) := by
    decide +kernel
  obtain ⟨w, ended, facts⟩ := Option.map_eq_some_iff.mp summary
  simp only [Prod.mk.injEq] at facts
  exact ⟨w, ⟨_, run_of_session ended⟩, facts⟩

end Quit

end UnixProgramming.Sdb
