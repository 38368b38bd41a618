import UnixProgramming.Sdb.Sample
import UnixProgramming.Sdb.Step

/-!
# Commands outside the states they are for

The README lists for every command the states it is for. In another state a command
prints a message and does nothing else. Only `dump` has no such guard.
-/

namespace UnixProgramming.Sdb

open Memory Transition Stateful

variable {κ : Type}

/-- The states that the README gives for a command. -/
def Command.Documented : Command → RunState → Prop
  | .break _, s | .cont, s | .delete _, s | .disasm _, s | .dump _, s | .get _, s | .getregs, s
  | .vmmap, s | .set _ _, s | .si, s => s = .running
  | .start, s => s = .loaded
  | .load _, s => s = .noload
  | .run, s => s = .loaded ∨ s = .running
  | .exit, _ | .help, _ | .list, _ | .unknown, _ => True

/-- The command comes back and has printed something; nothing else has changed, and no
request was made and no process forked. -/
def Inert (host : Host κ) (cmd : Command) (w : World κ) : Prop :=
  ∀ n, ∃ texts : List String,
    exec host n cmd w = .ok () { w with log := texts.map .stderr ++ w.log }

section Requests

def Effect.isRequest : Effect → Bool
  | .ptrace _ _ => true
  | _ => false

/-- The number of requests made so far. -/
def World.requests (w : World κ) : Nat := w.log.countP Effect.isRequest

def NoFewer (w w' : World κ) : Prop := w.requests ≤ w'.requests

instance : Std.Refl (NoFewer (κ := κ)) := ⟨fun _ => Nat.le_refl _⟩

instance : IsTrans (World κ) NoFewer := ⟨fun _ _ _ => Nat.le_trans⟩

theorem emit_noFewer (e : Effect) : Within NoFewer (emit (κ := κ) e) := by
  refine .modify fun w => ?_
  rw [NoFewer, World.requests, World.requests, List.countP_cons]
  exact Nat.le_add_right _ _

theorem noFewer : Reads (NoFewer (κ := κ)) := .of_emit emit_noFewer

/-- The program makes a request whatever the world. -/
def Requesting {α : Type} (m : Cmd κ α) : Prop := ∀ w, w.requests < (final (m w)).requests

theorem peekText_requesting (pid : Int) (addr : Addr) : Requesting (peekText (κ := κ) pid addr) := by
  intro w
  simp only [peekText, peekText?, emit, bind_apply, modify_apply, get_apply, pure_apply, final]
  rw [World.requests, World.requests, List.countP_cons]
  exact Nat.lt_succ_self _

theorem Requesting.bind {α β : Type} {m : Cmd κ α} {f : α → Cmd κ β} (first : Requesting m)
    (rest : ∀ a, Within NoFewer (f a)) : Requesting (m >>= f) := by
  intro w
  have more := first w
  rw [bind_apply]
  cases ran : m w with
  | ok a w' =>
    rw [ran] at more
    exact Nat.lt_of_lt_of_le more (rest a w')
  | error e w' =>
    rw [ran] at more
    exact more

/-- After something that always comes back. -/
theorem Requesting.after {α β : Type} {m : Cmd κ α} {f : α → Cmd κ β} (first : Within NoFewer m)
    (returns : ∀ w, ∃ a w', m w = .ok a w') (rest : ∀ a, Requesting (f a)) :
    Requesting (m >>= f) := by
  intro w
  obtain ⟨a, w', ran⟩ := returns w
  rw [bind_apply, ran]
  exact Nat.lt_of_le_of_lt (first.ok ran) (rest a w')

theorem dump_requesting (addr : Addr) : Requesting (dump (κ := κ) addr) := by
  have row (pid : Int) (addr : Addr) (text : String) (r : ForInStep PUnit) : Within NoFewer
      (do
        stderr (κ := κ) text
        let first ← dump.dumpWord pid addr
        let second ← dump.dumpWord pid (addr + 8)
        stderr ("|" ++ first ++ second ++ "| \n")
        return r) :=
    .bind (emit_noFewer _) fun _ => .bind (noFewer.dumpWord _ _) fun _ =>
      .bind (noFewer.dumpWord _ _) fun _ => .bind (emit_noFewer _) fun _ => .pure _
  have asks (pid : Int) (addr : Addr) : Requesting (dump.dumpWord (κ := κ) pid addr) :=
    .bind (peekText_requesting _ _) fun _ =>
      .bind (.forIn (fun _ _ => .bind (emit_noFewer _) fun _ => .pure _) _ _) fun _ => .pure _
  refine .after .get (fun w => ⟨w, w, rfl⟩) fun w => ?_
  refine .bind ?_ fun _ => .pure _
  rw [List.forIn_cons]
  refine .bind ?_ fun r => ?_
  · refine .after (emit_noFewer _) (fun w => ⟨(), _, rfl⟩) fun _ => ?_
    exact .bind (asks _ _) fun _ => .bind (noFewer.dumpWord _ _) fun _ =>
      .bind (emit_noFewer _) fun _ => .pure _
  · cases r with
    | done _ => exact .pure _
    | yield _ => exact .forIn (fun _ _ => row _ _ _ _) _ _

theorem Inert.requests {host : Host κ} {cmd : Command} {w : World κ} (inert : Inert host cmd w)
    (n : Nat) : (final (exec host n cmd w)).requests = w.requests := by
  obtain ⟨texts, ran⟩ := inert n
  have quiet : (texts.map Effect.stderr).countP Effect.isRequest = 0 := by
    rw [List.countP_eq_zero]
    intro e member
    obtain ⟨text, _, rfl⟩ := List.mem_map.mp member
    exact Bool.false_ne_true
  rw [ran]
  simp [final, World.requests, quiet]

end Requests

section Guards

variable {host : Host κ} {w : World κ} {cmd : Command}

theorem Inert.of_message (text : String)
    (said : ∀ n, exec host n cmd w = .ok () { w with log := .stderr text :: w.log }) :
    Inert host cmd w := fun n => ⟨[text], said n⟩

/-- The guard that most commands start with. -/
theorem inert_of_guard {s : RunState} {msg : String} {body : Nat → World κ → Cmd κ Unit}
    (outside : w.info.state ≠ s)
    (guarded : ∀ n, exec host n cmd =
      get >>= fun v => if v.info.state ≠ s then stderr msg else body n v) :
    Inert host cmd w := by
  refine .of_message msg fun n => ?_
  rw [guarded n]
  simp [outside, stderr, emit]

theorem inert_delete {idx : Int} (unlisted : w.info.bpVec[bpIndex idx]? = none) :
    Inert host (.delete idx) w := by
  refine .of_message ("** Not found index: " ++ toString idx ++ " breakpoint\n") fun n => ?_
  simp [exec, delBp, unlisted, stderr, emit]

theorem inert_run (idle : w.info.state = .noload) : Inert host .run w := by
  refine .of_message "** state must be LOADED or RUNNING.\n" fun n => ?_
  simp [exec, runProgram, idle, stderr, emit]

/-- `delete` has no guard, but outside `RUNNING` it finds no breakpoint. -/
theorem inert_of_outside (tidy : w.Tidy) (outside : ¬ cmd.Documented w.info.state)
    (noDump : ∀ addr, cmd ≠ .dump addr) : Inert host cmd w := by
  cases cmd with
  | «break» addr => exact inert_of_guard outside fun _ => rfl
  | cont => exact inert_of_guard outside fun _ => rfl
  | delete idx => exact inert_delete (by simp [tidy.idle outside])
  | disasm addr => exact inert_of_guard outside fun _ => rfl
  | dump addr => exact absurd rfl (noDump addr)
  | get reg => exact inert_of_guard outside fun _ => rfl
  | getregs => exact inert_of_guard outside fun _ => rfl
  | vmmap => exact inert_of_guard outside fun _ => rfl
  | set reg val => exact inert_of_guard outside fun _ => rfl
  | si => exact inert_of_guard outside fun _ => rfl
  | start => exact inert_of_guard outside fun _ => rfl
  | load path => exact inert_of_guard outside fun _ => rfl
  | run =>
    cases state : w.info.state with
    | noload => exact inert_run state
    | loaded => exact absurd (.inl state) outside
    | running => exact absurd (.inr state) outside
  | exit => exact absurd trivial outside
  | help => exact absurd trivial outside
  | list => exact absurd trivial outside
  | unknown => exact absurd trivial outside

/-- Outside its documented states a command is inert if and only if it is not `dump`. -/
theorem inert_iff (reach : Reachable host w) (outside : ¬ cmd.Documented w.info.state) :
    Inert host cmd w ↔ ∀ addr, cmd ≠ .dump addr := by
  constructor
  · rintro inert addr rfl
    exact absurd (inert.requests 0) (Nat.ne_of_gt (dump_requesting addr w))
  · exact inert_of_outside reach.tidy outside

theorem inert_iff_delete :
    Inert (Sample.host []) (.delete 0) (World.init (Sample.host [])) ↔
      ∀ addr, Command.delete 0 ≠ .dump addr :=
  inert_iff ⟨[], .nil⟩ (by simp [Command.Documented, World.init, ProgInfo.empty])

/-- Before anything is loaded, `dump` makes requests to a pid that nobody has set. -/
theorem dump_not_inert :
    Reachable (Sample.host []) (World.init (Sample.host [])) ∧
      ¬ Command.Documented (.dump 0x401000) (World.init (Sample.host [])).info.state ∧
      ¬ Inert (Sample.host []) (.dump 0x401000) (World.init (Sample.host [])) := by
  refine ⟨⟨[], .nil⟩, by simp [Command.Documented, World.init, ProgInfo.empty], ?_⟩
  intro inert
  exact absurd (inert.requests 0) (Nat.ne_of_gt (dump_requesting 0x401000 _))

end Guards

end UnixProgramming.Sdb
