import UnixProgramming.Sdb.Patching

/-!
# Commands and the history before them

A command reads the debugger's variables and the debuggee, and never what has been printed
or requested before. So it does and prints the same after any history, and the commands
that only look can be left out of a run: nothing else changes, not even what the other
commands print.
-/

namespace UnixProgramming.Sdb

open Memory Transition Stateful

variable {κ : Type}

/-- The world with effects from before its own. -/
def World.after (past : List Effect) (w : World κ) : World κ := { w with log := w.log ++ past }

section Blind

variable {past : List Effect}

theorem emit_commutes (e : Effect) : Commutes (World.after past) (emit e : Cmd κ Unit) :=
  .modify fun _ => rfl

theorem stderr_commutes (text : String) : Commutes (World.after past) (stderr text : Cmd κ Unit) :=
  emit_commutes _

theorem errquit_commutes {α : Type} (msg : String) :
    Commutes (World.after past) (errquit msg : Cmd κ α) :=
  .bind (stderr_commutes _) fun _ => .throw _

theorem peekText?_commutes (pid : Int) (addr : Addr) :
    Commutes (World.after past) (peekText? pid addr : Cmd κ _) :=
  .bind (emit_commutes _) fun _ => .reads (fun _ => rfl) fun _ => .pure _

theorem peekText_commutes (pid : Int) (addr : Addr) :
    Commutes (World.after past) (peekText pid addr : Cmd κ _) :=
  .bind (peekText?_commutes _ _) fun _ => .pure _

theorem pokeText_commutes (pid : Int) (addr : Addr) (word : BitVec 64) :
    Commutes (World.after past) (pokeText pid addr word : Cmd κ _) := by
  refine .bind (emit_commutes _) fun _ => .reads (fun _ => rfl) fun w => ?_
  split
  · exact .pure _
  · split
    · exact .pure _
    · exact .bind (.modify fun _ => rfl) fun _ => .pure _

theorem getRegs_commutes (pid : Int) : Commutes (World.after past) (getRegs pid : Cmd κ _) :=
  .bind (emit_commutes _) fun _ => .reads (fun _ => rfl) fun _ => .pure _

theorem setRegs_commutes (pid : Int) (regs : UserRegs) :
    Commutes (World.after past) (setRegs pid regs : Cmd κ _) := by
  refine .bind (emit_commutes _) fun _ => .reads (fun _ => rfl) fun w => ?_
  split
  · exact .pure _
  · exact .bind (.modify fun _ => rfl) fun _ => .pure _

theorem resumeChild_commutes (pid : Int) (how : Resume) :
    Commutes (World.after past) (resumeChild pid how : Cmd κ _) := by
  refine .bind (emit_commutes _) fun _ => .reads (fun _ => rfl) fun w => ?_
  split
  · exact .pure _
  · exact .bind (.modify fun _ => rfl) fun _ => .pure _

theorem waitpid_commutes (n : Nat) (pid : Int) :
    Commutes (World.after past) (waitpid n pid : Cmd κ _) := by
  refine .reads (fun _ => rfl) fun w => ?_
  split
  · exact .pure _
  · split
    · exact .pure _
    · split
      · exact .throw _
      · split
        · exact .throw _
        · exact .bind (.modify fun _ => rfl) fun _ => .pure _

/-- `unless done do errquit msg`, followed by the rest of a program. -/
theorem unless_commutes {α : Type} (done : Bool) (msg : String) {rest : Unit → Cmd κ α}
    (go : ∀ u, Commutes (World.after past) (rest u)) :
    Commutes (World.after past) (if done = true then rest () else errquit msg >>= rest) := by
  split
  · exact go ()
  · exact .bind (errquit_commutes _) go

theorem forIn_stderr_commutes {γ : Type} (xs : List γ) (text : γ → String) :
    Commutes (World.after past) (forIn xs PUnit.unit fun x _ => do
      stderr (text x)
      pure (ForInStep.yield PUnit.unit) : Cmd κ PUnit) :=
  .forIn (fun _ _ => .bind (stderr_commutes _) fun _ => .pure _) _ _

end Blind

section Looking

variable {past : List Effect}

theorem dumpWord_commutes (pid : Int) (addr : Addr) :
    Commutes (World.after past) (dump.dumpWord pid addr : Cmd κ _) :=
  .bind (peekText_commutes _ _) fun _ => .bind (forIn_stderr_commutes _ _) fun _ => .pure _

theorem dump_commutes (addr : Addr) : Commutes (World.after past) (dump addr : Cmd κ _) := by
  refine .reads (fun _ => rfl) fun w => .bind (.forIn (fun _ _ => ?_) _ _) fun _ => .pure _
  exact .bind (stderr_commutes _) fun _ => .bind (dumpWord_commutes _ _) fun _ =>
    .bind (dumpWord_commutes _ _) fun _ => .bind (stderr_commutes _) fun _ => .pure _

theorem disasm_commutes (host : Host κ) (addr : Addr) :
    Commutes (World.after past) (disasm host addr) := by
  refine .reads (fun _ => rfl) fun w => ?_
  split
  · exact stderr_commutes _
  · split
    · exact stderr_commutes _
    · split
      · exact stderr_commutes _
      · exact .bind (forIn_stderr_commutes _ _) fun _ => .pure _

theorem printReg_commutes (reg : String) : Commutes (World.after past) (printReg reg : Cmd κ _) := by
  refine .reads (fun _ => rfl) fun w => ?_
  dsimp only
  split
  · exact stderr_commutes _
  · refine .bind (getRegs_commutes _) fun regs => ?_
    split
    · exact errquit_commutes _
    · split <;> exact stderr_commutes _

theorem printAllRegs_commutes : Commutes (World.after past) (printAllRegs : Cmd κ _) := by
  refine .reads (fun _ => rfl) fun w => ?_
  dsimp only
  split
  · exact stderr_commutes _
  · refine .bind (getRegs_commutes _) fun regs => ?_
    split
    · exact errquit_commutes _
    · exact .bind (forIn_stderr_commutes _ _) fun _ => .pure _

theorem help_commutes : Commutes (World.after past) (help : Cmd κ _) :=
  .bind (forIn_stderr_commutes _ _) fun _ => .pure _

theorem listBp_commutes : Commutes (World.after past) (listBp : Cmd κ _) := by
  refine .reads (fun _ => rfl) fun w => ?_
  dsimp only
  split
  · exact stderr_commutes _
  · exact .bind (forIn_stderr_commutes _ _) fun _ => .pure _

theorem cString_commutes (array : List Char) :
    Commutes (World.after past) (cString array : Cmd κ _) := by
  unfold cString
  split
  · exact .pure _
  · exact .throw _

theorem vmmap_commutes (host : Host κ) : Commutes (World.after past) (vmmap host) := by
  refine .reads (fun _ => rfl) fun w => ?_
  dsimp only
  split
  · exact stderr_commutes _
  · split
    · exact stderr_commutes _
    · split
      · exact .throw _
      · exact stderr_commutes _
      · refine .bind (.forIn (fun _ _ => ?_) _ _) fun _ => .pure _
        exact .bind (cString_commutes _) fun _ => .bind (stderr_commutes _) fun _ => .pure _

end Looking

section Driving

variable {past : List Effect}

theorem setBp_commutes (addr : Addr) : Commutes (World.after past) (setBp addr : Cmd κ _) := by
  refine .reads (fun _ => rfl) fun w => ?_
  dsimp only
  split
  · exact stderr_commutes _
  · refine .bind (peekText_commutes _ _) fun code => ?_
    split
    · exact .pure _
    · refine .bind (.modify fun _ => rfl) fun _ => ?_
      exact .bind (pokeText_commutes _ _ _) fun done => unless_commutes done _ fun _ => .pure _

theorem delBp_commutes (idx : Int) : Commutes (World.after past) (delBp idx : Cmd κ _) := by
  refine .reads (fun _ => rfl) fun w => ?_
  dsimp only
  split
  · exact stderr_commutes _
  · refine .reads (fun _ => rfl) fun v => ?_
    split
    on_goal 1 => refine .bind (.modify fun v => ?swap) fun _ => ?_
    case swap => rfl
    all_goals
      refine .bind (peekText_commutes _ _) fun code => .bind (pokeText_commutes _ _ _) fun done => ?_
      refine unless_commutes done _ fun _ => .bind (.modify fun _ => rfl) fun _ => ?_
      exact stderr_commutes _

theorem stepOver_commutes (n : Nat) : Commutes (World.after past) (stepOver n : Cmd κ _) := by
  refine .reads (fun _ => rfl) fun _ => .reads (fun _ => rfl) fun _ => ?_
  refine .bind (peekText_commutes _ _) fun _ => ?_
  refine .bind (pokeText_commutes _ _ _) fun back => unless_commutes back _ fun _ => ?_
  refine .bind (resumeChild_commutes _ _) fun resumed => unless_commutes resumed _ fun _ => ?_
  refine .bind (waitpid_commutes _ _) fun stored => ?_
  cases stored with
  | none => exact errquit_commutes _
  | some status =>
    refine .bind (pokeText_commutes _ _ _) fun again => unless_commutes again _ fun _ => ?_
    exact .bind (.modify fun _ => rfl) fun _ => .pure _

theorem reportHit_commutes (regs : UserRegs) (bps : List Breakpoint) :
    Commutes (World.after past) (reportHit regs bps : Cmd κ _) := by
  induction bps with
  | nil => exact .pure _
  | cons it rest ih =>
    unfold Sdb.reportHit
    split
    · refine .bind (stderr_commutes _) fun _ => .reads (fun _ => rfl) fun w => ?_
      split
      · exact ih
      · refine .bind (stderr_commutes _) fun _ => .bind (.modify fun _ => rfl) fun _ => ?_
        exact .reads (fun _ => rfl) fun _ =>
          .bind (setRegs_commutes _ _) fun done => unless_commutes done _ fun _ => .pure _
    · exact ih

theorem afterWait_commutes (status : Nat) :
    Commutes (World.after past) (afterWait status : Cmd κ _) := by
  refine .reads (fun _ => rfl) fun w => ?_
  dsimp only
  split
  on_goal 1 =>
    refine .bind (getRegs_commutes _) fun regs => ?_
    split
    · exact errquit_commutes _
    refine .bind (reportHit_commutes _ _) fun hit => ?_
    split
    · exact .pure _
  all_goals
    split
    · split
      · exact .bind (stderr_commutes _) fun _ => .modify fun _ => rfl
      · exact .bind (stderr_commutes _) fun _ => .modify fun _ => rfl
    · exact .pure _

theorem goOn_commutes (status n : Nat) : Commutes (World.after past) (goOn status n : Cmd κ _) :=
  .reads (fun _ => rfl) fun _ => .bind (resumeChild_commutes _ _) fun _ =>
    .bind (waitpid_commutes _ _) fun _ => afterWait_commutes _

theorem cont_commutes (uninit n : Nat) : Commutes (World.after past) (cont uninit n : Cmd κ _) := by
  refine .reads (fun _ => rfl) fun w => ?_
  dsimp only
  split
  · exact stderr_commutes _
  · refine .bind (getRegs_commutes _) fun regs => ?_
    split
    · exact errquit_commutes _
    · refine .reads (fun _ => rfl) fun v => ?_
      split
      · exact .bind (stepOver_commutes _) fun _ => goOn_commutes _ _
      · exact goOn_commutes _ _

theorem si_commutes (n : Nat) : Commutes (World.after past) (si n : Cmd κ _) := by
  refine .reads (fun _ => rfl) fun w => ?_
  dsimp only
  split
  · exact stderr_commutes _
  · exact .bind (resumeChild_commutes _ _) fun done => unless_commutes done _ fun _ =>
      .bind (waitpid_commutes _ _) fun _ => .pure _

theorem setReg_commutes (reg : String) (val : BitVec 64) :
    Commutes (World.after past) (setReg reg val : Cmd κ _) := by
  refine .reads (fun _ => rfl) fun w => ?_
  dsimp only
  split
  · exact stderr_commutes _
  · refine .bind (getRegs_commutes _) fun regs => ?_
    split
    · exact errquit_commutes _
    · split
      · exact stderr_commutes _
      · exact .bind (setRegs_commutes _ _) fun _ => .pure _

end Driving

section Starting

variable {past : List Effect} (host : Host κ)

theorem elfRead_commutes (path : String) : Commutes (World.after past) (elfRead host path) := by
  unfold Sdb.elfRead
  dsimp only
  split
  · exact .bind (stderr_commutes _) fun _ => .throw _
  · split
    · exact .bind (stderr_commutes _) fun _ => .throw _
    · split
      · split
        · exact .throw _
        · exact .pure _
      · exact .pure _

theorem load_commutes (path : String) : Commutes (World.after past) (load host path) := by
  refine .reads (fun _ => rfl) fun w => ?_
  split
  · exact stderr_commutes _
  · exact .bind (elfRead_commutes _ _) fun _ => .bind (stderr_commutes _) fun _ =>
      .modify fun _ => rfl

theorem readWindow_commutes (pid : Int) (ptr : Addr) (k : Nat) :
    Commutes (World.after past) (readWindow pid ptr k : Cmd κ _) := by
  induction k generalizing ptr with
  | zero => exact .pure _
  | succ k ih =>
    refine .bind (peekText?_commutes _ _) fun word => ?_
    split
    · exact .pure _
    · exact .bind (ih _) fun _ => .pure _

theorem disassemble_commutes (pid : Int) (addr : Addr) :
    Commutes (World.after past) (disassemble host pid addr) := by
  unfold Sdb.disassemble
  split
  on_goal 1 => refine .bind (readWindow_commutes _ _ _) fun buf => ?_
  on_goal 2 => refine .bind (.pure _) fun buf => ?_
  all_goals
    beta_reduce
    cases host.csDisasm (buf.take 63) addr with
    | none => exact .bind (stderr_commutes _) fun _ => .pure _
    | some insn => exact .bind (.modify fun _ => rfl) fun _ => .pure _

theorem sweep_commutes (pid : Int) (stop addr : Addr) (n : Nat) :
    Commutes (World.after past) (sweep host pid stop n addr) := by
  induction n generalizing addr with
  | zero =>
    unfold Sdb.sweep
    split
    · exact .throw _
    · exact .pure _
  | succ n ih =>
    unfold Sdb.sweep
    split
    · refine .bind (disassemble_commutes _ _ _) fun recorded => ?_
      split
      · refine .reads (fun _ => rfl) fun w => ?_
        split
        · exact .throw _
        · exact ih _
      · exact .pure _
    · exact .pure _

theorem getOrigCode_commutes (n : Nat) : Commutes (World.after past) (getOrigCode host n) := by
  refine .reads (fun _ => rfl) fun w => ?_
  dsimp only
  split
  · exact sweep_commutes _ _ _ _ _
  · exact stderr_commutes _

theorem start_commutes (n : Nat) : Commutes (World.after past) (start host n) := by
  refine .reads (fun _ => rfl) fun w => ?_
  dsimp only
  split
  · exact stderr_commutes _
  · refine .bind (emit_commutes _) fun _ => .reads (fun _ => rfl) fun v => ?_
    split
    · exact errquit_commutes _
    · refine .bind (.modify fun _ => rfl) fun _ => ?_
      split
      · exact .throw _
      · refine .bind (.modify fun _ => rfl) fun _ => .bind (emit_commutes _) fun _ => ?_
        refine .bind (stderr_commutes _) fun _ => .bind (.modify fun _ => rfl) fun _ => ?_
        exact getOrigCode_commutes _ _

theorem runProgram_commutes (n : Nat) : Commutes (World.after past) (runProgram host n) := by
  refine .reads (fun _ => rfl) fun w => ?_
  dsimp only
  split
  · exact .bind (stderr_commutes _) fun _ => cont_commutes _ _
  · exact .bind (start_commutes _ _) fun _ => cont_commutes _ _
  · exact stderr_commutes _

theorem exec_commutes (n : Nat) (cmd : Command) : Commutes (World.after past) (exec host n cmd) := by
  cases cmd with
  | «break» addr => exact setBp_commutes _
  | cont => exact cont_commutes _ _
  | delete idx => exact delBp_commutes _
  | disasm addr => exact disasm_commutes _ _
  | dump addr => exact dump_commutes _
  | exit => exact .throw _
  | get reg => exact printReg_commutes _
  | getregs => exact printAllRegs_commutes
  | help => exact help_commutes
  | list => exact listBp_commutes
  | load path => exact load_commutes _ _
  | run => exact runProgram_commutes _ _
  | vmmap => exact vmmap_commutes _
  | set reg val => exact setReg_commutes _ _
  | si => exact si_commutes _
  | start => exact start_commutes _ _
  | unknown => exact stderr_commutes _

end Starting

section Transcripts

/-- The commands that only look at what is there. -/
def Command.observes : Command → Bool
  | .disasm _ | .dump _ | .get _ | .getregs | .help | .list | .vmmap | .unknown => true
  | _ => false

/-- A step of the debugger with what it has added to the log. -/
def Spoken (host : Host κ) (entry : Command × List Effect) (w w' : World κ) : Prop :=
  Step host entry.1 w w' ∧ w'.log = entry.2 ++ w.log

variable {host : Host κ} {cs : List Command} {tr : List (Command × List Effect)} {w w' v : World κ}

theorem exec_after (n : Nat) (cmd : Command) (w : World κ) : exec host n cmd w =
    mapState (World.after w.log) (exec host n cmd { w with log := [] }) :=
  @exec_commutes κ w.log host n cmd { w with log := [] }

theorem exec_after_ok {n : Nat} {cmd : Command} (ok : exec host n cmd w = .ok () w') :
    ∃ u, exec host n cmd { w with log := [] } = .ok () u ∧ w' = u.after w.log := by
  rw [exec_after] at ok
  cases alone : exec host n cmd { w with log := [] } with
  | error e u =>
    rw [alone] at ok
    cases ok
  | ok r u =>
    rw [alone] at ok
    cases ok
    exact ⟨u, rfl, rfl⟩

theorem Step.spoken {cmd : Command} (step : Step host cmd w w') : ∃ l, Spoken host (cmd, l) w w' := by
  rcases step with ⟨n, ok⟩
  rcases exec_after_ok ok with ⟨u, -, rfl⟩
  exact ⟨u.log, ⟨n, ok⟩, rfl⟩

/-- A step does and adds the same after another history. -/
theorem Spoken.elsewhere {entry : Command × List Effect} (spoken : Spoken host entry w w')
    (same : SameButLog w v) : ∃ v', Spoken host entry v v' ∧ SameButLog w' v' := by
  rcases spoken with ⟨⟨n, ok⟩, added⟩
  rcases exec_after_ok ok with ⟨u, alone, rfl⟩
  have own : u.log = entry.2 := List.append_cancel_right added
  have bare : ({ v with log := [] } : World κ) = { w with log := [] } := by rw [same]
  have there : exec host n entry.1 v = .ok () (u.after v.log) := by
    rw [exec_after, bare, alone]
    rfl
  exact ⟨u.after v.log, ⟨⟨n, there⟩, congrArg (· ++ v.log) own⟩, rfl⟩

theorem Step.quiet_of_observes {cmd : Command} (step : Step host cmd w w')
    (looks : cmd.observes = true) : SameButLog w w' := by
  rcases step with ⟨n, ok⟩
  cases cmd with
  | disasm addr => exact (quiet.disasm host addr).ok ok
  | dump addr => exact (quiet.dump addr).ok ok
  | get reg => exact (quiet.printReg reg).ok ok
  | getregs => exact quiet.printAllRegs.ok ok
  | help => exact quiet.help.ok ok
  | list => exact quiet.listBp.ok ok
  | vmmap => exact (quiet.vmmap host).ok ok
  | unknown => exact (quiet.stderr _).ok ok
  | _ => cases looks

/-- Every run has a transcript. -/
theorem spoken_of_run (run : Run (Step host) cs w w') :
    ∃ tr : List (Command × List Effect), tr.map Prod.fst = cs ∧ Run (Spoken host) tr w w' := by
  induction run with
  | nil => exact ⟨[], rfl, .nil⟩
  | cons step _ ih =>
    rcases step.spoken with ⟨l, spoken⟩
    rcases ih with ⟨tr, rfl, rest⟩
    exact ⟨(_, l) :: tr, rfl, .cons spoken rest⟩

/-- The transcript without the commands that only look is one of a run, from any world that
differs in its history. -/
theorem Spoken.erase (run : Run (Spoken host) tr w w') (same : SameButLog w v) :
    ∃ v', Run (Spoken host) (tr.filter fun entry => !entry.1.observes) v v' ∧ SameButLog w' v' := by
  induction run generalizing v with
  | nil => exact ⟨v, .nil, same⟩
  | @cons entry tr w w₁ w' head _ ih =>
    cases looks : entry.1.observes with
    | true =>
      have unchanged := head.1.quiet_of_observes looks
      have same₁ : SameButLog w₁ v := by
        unfold SameButLog at *
        rw [unchanged, same]
      rcases ih same₁ with ⟨v', rest, same'⟩
      rw [List.filter_cons_of_neg (by simp [looks])]
      exact ⟨v', rest, same'⟩
    | false =>
      rcases head.elsewhere same with ⟨v₁, head', same₁⟩
      rcases ih same₁ with ⟨v', rest, same'⟩
      rw [List.filter_cons_of_pos (by simp [looks])]
      exact ⟨v', .cons head' rest, same'⟩

/-- Commands that only look can be left out of a run: the others still come back, with the
same output and the same requests each, and the debugger and the debuggee end as they did. -/
theorem observers_erased (run : Run (Step host) cs w w') :
    ∃ tr : List (Command × List Effect), tr.map Prod.fst = cs ∧ Run (Spoken host) tr w w' ∧
      ∃ v', Run (Spoken host) (tr.filter fun entry => !entry.1.observes) w v' ∧ SameButLog w' v' := by
  rcases spoken_of_run run with ⟨tr, commands, spoken⟩
  exact ⟨tr, commands, spoken, Spoken.erase spoken rfl⟩

/-- A session that looks around between its steps. -/
theorem observers_erased_fill : ∃ (w' v' : World Unit) (tr : List (Command × List Effect)),
    tr.map Prod.fst = [.load "fill", .start, .getregs, .break 0x401ffd, .list, .cont, .si,
      .dump 0x402000, .cont] ∧
    Run (Spoken (Sample.host fill)) (tr.filter fun entry => !entry.1.observes)
      (World.init (Sample.host fill)) v' ∧ SameButLog w' v' := by
  have ended : (session (Sample.host fill) 40 [.load "fill", .start, .getregs, .break 0x401ffd,
      .list, .cont, .si, .dump 0x402000, .cont]).isSome := by
    decide +kernel
  rcases Option.isSome_iff_exists.mp ended with ⟨w', ended⟩
  rcases observers_erased (run_of_session ended) with ⟨tr, commands, -, v', erased, same⟩
  exact ⟨w', v', tr, commands, erased, same⟩

end Transcripts

end UnixProgramming.Sdb
