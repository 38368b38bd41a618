import UnixProgramming.Sdb.Command

/-!
# What the operations keep, the commands keep

A reflexive and transitive relation that holds of the operations on the debuggee holds of
every command. `Reads` is enough for the commands that only read and print, `Drives` for
those on a debuggee, and `Keeps` for all.
-/

namespace UnixProgramming.Sdb

open Memory Stateful

variable {κ : Type}

/-- The relation holds of printing, and of reading the debuggee. -/
structure Reads (R : World κ → World κ → Prop) : Prop where
  stderr : ∀ text, Within R (stderr text)
  peek : ∀ pid addr, Within R (peekText? pid addr)
  regs : ∀ pid, Within R (getRegs pid)

/-- It also holds of changing the debuggee and of resuming it. The debugger's own variables
do not matter. -/
structure Drives (R : World κ → World κ → Prop) : Prop extends Reads R where
  own : ∀ w w', w'.child = w.child → w'.log = w.log → R w w'
  poke : ∀ pid addr word, Within R (pokeText pid addr word)
  setRegs : ∀ pid regs, Within R (setRegs pid regs)
  resume : ∀ pid how, Within R (resumeChild pid how)
  wait : ∀ n pid, Within R (waitpid n pid)

/-- It also holds of starting a debuggee. -/
structure Keeps (host : Host κ) (R : World κ → World κ → Prop) : Prop extends Drives R where
  fork : Within R (emit .fork)
  born : ∀ w pid prog, host.fork w.forks = some pid → host.exec w.info.path = some prog →
    R w { w with
      child := some ⟨pid, prog, prog.image, none⟩
      forks := w.forks + 1
      log := .ptrace pid .setOptions :: .fork :: w.log }

variable {R : World κ → World κ → Prop} [Std.Refl R] [IsTrans (World κ) R]

section Reading

theorem Reads.of_emit (emitted : ∀ e, Within R (emit e)) : Reads R where
  stderr _ := emitted _
  peek _ _ := .bind (emitted _) fun _ => .bind .get fun _ => .pure _
  regs _ := .bind (emitted _) fun _ => .bind .get fun _ => .pure _

theorem Reads.errquit (h : Reads R) {α : Type} (msg : String) : Within R (errquit (κ := κ) (α := α) msg) :=
  .bind (h.stderr _) fun _ => .throw _

theorem Reads.peekText (h : Reads R) (pid : Int) (addr : Addr) : Within R (peekText pid addr) :=
  .bind (h.peek _ _) fun _ => .pure _

theorem Reads.dumpWord (h : Reads R) (pid : Int) (addr : Addr) : Within R (dump.dumpWord pid addr) :=
  .bind (h.peekText _ _) fun _ =>
    .bind (.forIn (fun _ _ => .bind (h.stderr _) fun _ => .pure _) _ _) fun _ => .pure _

theorem Reads.dump (h : Reads R) (addr : Addr) : Within R (dump addr) := by
  refine .bind .get fun _ => .bind (.forIn (fun _ _ => ?_) _ _) fun _ => .pure _
  exact .bind (h.stderr _) fun _ => .bind (h.dumpWord _ _) fun _ => .bind (h.dumpWord _ _) fun _ =>
    .bind (h.stderr _) fun _ => .pure _

theorem Reads.disasm (h : Reads R) (host : Host κ) (addr : Addr) : Within R (disasm host addr) := by
  refine .bind .get fun w => ?_
  split
  · exact h.stderr _
  · split
    · exact h.stderr _
    · split
      · exact h.stderr _
      · exact .bind (.forIn (fun _ _ => .bind (h.stderr _) fun _ => .pure _) _ _) fun _ => .pure _

theorem Reads.printReg (h : Reads R) (reg : String) : Within R (printReg reg) := by
  refine .bind .get fun w => ?_
  dsimp only
  split
  · exact h.stderr _
  · refine .bind (h.regs _) fun regs => ?_
    split
    · exact h.errquit _
    · split <;> exact h.stderr _

theorem Reads.printAllRegs (h : Reads R) : Within R printAllRegs := by
  refine .bind .get fun w => ?_
  dsimp only
  split
  · exact h.stderr _
  · refine .bind (h.regs _) fun regs => ?_
    split
    · exact h.errquit _
    · exact .bind (.forIn (fun _ _ => .bind (h.stderr _) fun _ => .pure _) _ _) fun _ => .pure _

theorem Reads.help (h : Reads R) : Within R help :=
  .bind (.forIn (fun _ _ => .bind (h.stderr _) fun _ => .pure _) _ _) fun _ => .pure _

theorem Reads.listBp (h : Reads R) : Within R listBp := by
  refine .bind .get fun w => ?_
  dsimp only
  split
  · exact h.stderr _
  · exact .bind (.forIn (fun _ _ => .bind (h.stderr _) fun _ => .pure _) _ _) fun _ => .pure _

omit [IsTrans (World κ) R] in
theorem within_cString (array : List Char) : Within R (cString array) := by
  unfold cString
  split
  · exact .pure _
  · exact .throw _

theorem Reads.vmmap (h : Reads R) (host : Host κ) : Within R (vmmap host) := by
  refine .bind .get fun w => ?_
  dsimp only
  split
  · exact h.stderr _
  · split
    · exact h.stderr _
    · split
      · exact .throw _
      · exact h.stderr _
      · refine .bind (.forIn (fun _ _ => ?_) _ _) fun _ => .pure _
        exact .bind (within_cString _) fun _ => .bind (h.stderr _) fun _ => .pure _

theorem Reads.elfRead (h : Reads R) (host : Host κ) (path : String) : Within R (elfRead host path) := by
  unfold Sdb.elfRead
  dsimp only
  split
  · exact .bind (h.stderr _) fun _ => .throw _
  · split
    · exact .bind (h.stderr _) fun _ => .throw _
    · split
      · split
        · exact .throw _
        · exact .pure _
      · exact .pure _

theorem Reads.readWindow (h : Reads R) (pid : Int) (ptr : Addr) (k : Nat) : Within R (readWindow pid ptr k) := by
  induction k generalizing ptr with
  | zero => exact .pure _
  | succ k ih =>
    refine .bind (h.peek _ _) fun word => ?_
    split
    · exact .pure _
    · exact .bind (ih _) fun _ => .pure _

theorem Reads.disassemble (h : Reads R) (code : ∀ w ins, R w { w with origInstructions := ins })
    (host : Host κ) (pid : Int) (addr : Addr) :
    Within R (disassemble host pid addr) := by
  unfold Sdb.disassemble
  split
  on_goal 1 => refine .bind (h.readWindow _ _ _) fun buf => ?_
  on_goal 2 => refine .bind (.pure _) fun buf => ?_
  all_goals
    beta_reduce
    cases host.csDisasm (buf.take 63) addr with
    | none => exact .bind (h.stderr _) fun _ => .pure _
    | some insn => exact .bind (.modify fun w => code w _) fun _ => .pure _

theorem Reads.sweep (h : Reads R) (code : ∀ w ins, R w { w with origInstructions := ins })
    (host : Host κ) (pid : Int) (stop addr : Addr) (n : Nat) :
    Within R (sweep host pid stop n addr) := by
  induction n generalizing addr with
  | zero =>
    unfold Sdb.sweep
    split
    · exact .throw _
    · exact .pure _
  | succ n ih =>
    unfold Sdb.sweep
    split
    · refine .bind (h.disassemble code _ _ _) fun recorded => ?_
      split
      · refine .bind .get fun w => ?_
        split
        · exact .throw _
        · exact ih _
      · exact .pure _
    · exact .pure _

theorem Reads.getOrigCode (h : Reads R) (code : ∀ w ins, R w { w with origInstructions := ins })
    (host : Host κ) (n : Nat) : Within R (getOrigCode host n) := by
  refine .bind .get fun w => ?_
  dsimp only
  split
  · exact h.sweep code _ _ _ _ _
  · exact h.stderr _

end Reading

section Driving

/-- For a relation of the logs only. -/
theorem Drives.of_log (emitted : ∀ e, Within R (emit e)) (log : ∀ w w', w'.log = w.log → R w w') :
    Drives R where
  toReads := .of_emit emitted
  own w w' _ same := log w w' same
  poke pid addr word := by
    refine .bind (emitted _) fun _ => .bind .get fun w => ?_
    split
    · exact .pure _
    · split
      · exact .pure _
      · exact .bind (.modify fun _ => log _ _ rfl) fun _ => .pure _
  setRegs pid regs := by
    refine .bind (emitted _) fun _ => .bind .get fun w => ?_
    split
    · exact .pure _
    · exact .bind (.modify fun _ => log _ _ rfl) fun _ => .pure _
  resume pid how := by
    refine .bind (emitted _) fun _ => .bind .get fun w => ?_
    split
    · exact .pure _
    · exact .bind (.modify fun _ => log _ _ rfl) fun _ => .pure _
  wait n pid := by
    refine .bind .get fun w => ?_
    split
    · exact .pure _
    · split
      · exact .pure _
      · split
        · exact .throw _
        · split
          · exact .throw _
          · exact .bind (.modify fun _ => log _ _ rfl) fun _ => .pure _

omit [Std.Refl R] [IsTrans (World κ) R] in
/-- A change of the debugger's own variables. -/
theorem Drives.modify (h : Drives R) {f : World κ → World κ} (child : ∀ w, (f w).child = w.child)
    (log : ∀ w, (f w).log = w.log) : Within R (modify f : Cmd κ Unit) :=
  .modify fun w => h.own w _ (child w) (log w)

/-- `unless done do errquit msg`, followed by the rest of a program. -/
theorem Drives.unless (h : Drives R) {α : Type} (done : Bool) (msg : String) {rest : Unit → Cmd κ α}
    (go : ∀ u, Within R (rest u)) : Within R (if done = true then rest () else errquit msg >>= rest) := by
  split
  · exact go ()
  · exact .bind (h.errquit _) go

theorem Drives.setBp (h : Drives R) (addr : Addr) : Within R (setBp addr) := by
  refine .bind .get fun w => ?_
  dsimp only
  split
  · exact h.stderr _
  · refine .bind (h.peekText _ _) fun code => ?_
    split
    · exact .pure _
    · refine .bind (h.modify (fun _ => rfl) fun _ => rfl) fun _ => ?_
      exact .bind (h.poke _ _ _) fun done => h.unless done _ fun _ => .pure _

theorem Drives.delBp (h : Drives R) (idx : Int) : Within R (delBp idx) := by
  refine .bind .get fun w => ?_
  dsimp only
  split
  · exact h.stderr _
  · refine .bind .get fun v => ?_
    split
    on_goal 1 => refine .bind (h.modify (fun _ => rfl) fun _ => rfl) fun _ => ?_
    all_goals
      refine .bind (h.peekText _ _) fun code => .bind (h.poke _ _ _) fun done => ?_
      refine h.unless done _ fun _ => .bind (h.modify (fun _ => rfl) fun _ => rfl) fun _ => ?_
      exact h.stderr _

theorem Drives.stepOver (h : Drives R) (n : Nat) : Within R (stepOver n) := by
  refine .bind .get fun _ => .bind .get fun _ => .bind (h.peekText _ _) fun _ => ?_
  refine .bind (h.poke _ _ _) fun back => h.unless back _ fun _ => ?_
  refine .bind (h.resume _ _) fun resumed => h.unless resumed _ fun _ => ?_
  refine .bind (h.wait _ _) fun stored => ?_
  cases stored with
  | none => exact h.errquit _
  | some status =>
    refine .bind (h.poke _ _ _) fun again => h.unless again _ fun _ => ?_
    exact .bind (h.modify (fun _ => rfl) fun _ => rfl) fun _ => .pure _

theorem Drives.reportHit (h : Drives R) (regs : UserRegs) (bps : List Breakpoint) :
    Within R (reportHit regs bps) := by
  induction bps with
  | nil => exact .pure _
  | cons it rest ih =>
    unfold Sdb.reportHit
    split
    · refine .bind (h.stderr _) fun _ => .bind .get fun w => ?_
      split
      · exact ih
      · refine .bind (h.stderr _) fun _ => .bind (h.modify (fun _ => rfl) fun _ => rfl) fun _ => ?_
        exact .bind .get fun _ => .bind (h.setRegs _ _) fun done => h.unless done _ fun _ => .pure _
    · exact ih

theorem Drives.afterWait (h : Drives R) (status : Nat) : Within R (afterWait status) := by
  refine .bind .get fun w => ?_
  dsimp only
  split
  on_goal 1 =>
    refine .bind (h.regs _) fun regs => ?_
    split
    · exact h.errquit _
    refine .bind (h.reportHit _ _) fun hit => ?_
    split
    · exact .pure _
  all_goals
    split
    · split
      · exact .bind (h.stderr _) fun _ => h.modify (fun _ => rfl) fun _ => rfl
      · exact .bind (h.stderr _) fun _ => h.modify (fun _ => rfl) fun _ => rfl
    · exact .pure _

theorem Drives.goOn (h : Drives R) (status n : Nat) : Within R (goOn status n) :=
  .bind .get fun _ => .bind (h.resume _ _) fun _ => .bind (h.wait _ _) fun _ => h.afterWait _

theorem Drives.cont (h : Drives R) (uninit n : Nat) : Within R (cont uninit n) := by
  refine .bind .get fun w => ?_
  dsimp only
  split
  · exact h.stderr _
  · refine .bind (h.regs _) fun regs => ?_
    split
    · exact h.errquit _
    · refine .bind .get fun v => ?_
      split
      · exact .bind (h.stepOver _) fun _ => h.goOn _ _
      · exact h.goOn _ _

theorem Drives.si (h : Drives R) (n : Nat) : Within R (si n) := by
  refine .bind .get fun w => ?_
  dsimp only
  split
  · exact h.stderr _
  · exact .bind (h.resume _ _) fun done => h.unless done _ fun _ => .bind (h.wait _ _) fun _ => .pure _

theorem Drives.setReg (h : Drives R) (reg : String) (val : BitVec 64) : Within R (setReg reg val) := by
  refine .bind .get fun w => ?_
  dsimp only
  split
  · exact h.stderr _
  · refine .bind (h.regs _) fun regs => ?_
    split
    · exact h.errquit _
    · split
      · exact h.stderr _
      · exact .bind (h.setRegs _ _) fun _ => .pure _

theorem Drives.load (h : Drives R) (host : Host κ) (path : String) : Within R (load host path) := by
  refine .bind .get fun w => ?_
  split
  · exact h.stderr _
  · exact .bind (h.elfRead _ _) fun _ => .bind (h.stderr _) fun _ =>
      h.modify (fun _ => rfl) fun _ => rfl

end Driving

section Keeping

variable {host : Host κ}

theorem Keeps.start (h : Keeps host R) (n : Nat) : Within R (start host n) := by
  intro w
  by_cases loaded : w.info.state = .loaded
  swap
  · have refused : Sdb.start host n w = stderr "** state must be LOADED.\n" w := by
      simp [Sdb.start, loaded]
    rw [refused]
    exact h.stderr _ w
  cases forked : host.fork w.forks with
  | none =>
    have failed : Sdb.start host n w = (emit .fork >>= fun _ => errquit "** fork error" : Cmd κ Unit) w := by
      simp [Sdb.start, loaded, emit, forked]
    rw [failed]
    exact Within.bind h.fork (fun _ => h.errquit _) w
  | some pid =>
    cases found : host.exec w.info.path with
    | none =>
      have failed : Sdb.start host n w = (emit .fork >>= fun _ =>
          modify (fun w => { w with forks := w.forks + 1 }) >>= fun _ => throw .abort : Cmd κ Unit) w := by
        simp [Sdb.start, loaded, emit, forked, found]
      rw [failed]
      refine Within.bind h.fork (fun _ => ?_) w
      exact .bind (h.modify (fun _ => rfl) fun _ => rfl) fun _ => .throw _
    | some prog =>
      have begun : Sdb.start host n w = (stderr ("** pid " ++ toString pid ++ "\n") >>= fun _ =>
          modify (fun w => { w with info := { w.info with state := .running, pid := pid } }) >>=
            fun _ => getOrigCode host n : Cmd κ Unit)
          { w with
            child := some ⟨pid, prog, prog.image, none⟩
            forks := w.forks + 1
            log := .ptrace pid .setOptions :: .fork :: w.log } := by
        simp [Sdb.start, loaded, emit, forked, found]
      rw [begun]
      refine IsTrans.trans _ _ _ (h.born w pid prog forked found) (Within.bind (h.stderr _) (fun _ => ?_) _)
      refine .bind (h.modify (fun _ => rfl) fun _ => rfl) fun _ => ?_
      exact h.getOrigCode (fun w _ => h.own _ _ rfl rfl) _ _

theorem Keeps.runProgram (h : Keeps host R) (n : Nat) : Within R (runProgram host n) := by
  refine .bind .get fun w => ?_
  dsimp only
  split
  · exact .bind (h.stderr _) fun _ => h.cont _ _
  · exact .bind (h.start _) fun _ => h.cont _ _
  · exact h.stderr _

theorem Keeps.exec (h : Keeps host R) (n : Nat) (cmd : Command) : Within R (exec host n cmd) := by
  cases cmd with
  | «break» addr => exact h.setBp _
  | cont => exact h.cont _ _
  | delete idx => exact h.delBp _
  | disasm addr => exact h.disasm _ _
  | dump addr => exact h.dump _
  | exit => exact .throw _
  | get reg => exact h.printReg _
  | getregs => exact h.printAllRegs
  | help => exact h.help
  | list => exact h.listBp
  | load path => exact h.load _ _
  | run => exact h.runProgram _
  | vmmap => exact h.vmmap _
  | set reg val => exact h.setReg _ _
  | si => exact h.si _
  | start => exact h.start _
  | unknown => exact h.stderr _

end Keeping

end UnixProgramming.Sdb
