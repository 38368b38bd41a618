import UnixProgramming.Sdb.Rule
import UnixProgramming.Sdb.Sample
import UnixProgramming.Sdb.Traced

/-!
# The debuggee's signals

Every request that resumes the debuggee passes 0, so the signal that has stopped it is
discarded. Under the debugger a process runs as if it ignored all its signals.
-/

namespace UnixProgramming.Sdb

open Memory Transition Stateful

variable {κ : Type}

section Replaying

/-- The kernel has the child as the debugger's world has it; a resumed one receives nothing. -/
inductive Agrees : Option (Proc κ) → Option (Child κ) → Prop where
  | absent : Agrees none none
  | gone {pid prog e writes} : Agrees (some ⟨pid, prog, .gone e, writes⟩) none
  | stopped {pid prog t sig writes} :
      Agrees (some ⟨pid, prog, .stopped (t, sig), writes⟩) (some ⟨pid, prog, t, none⟩)
  | resumed {pid prog t how writes} :
      Agrees (some ⟨pid, prog, .resumed (t, none) how, writes⟩) (some ⟨pid, prog, t, some how⟩)

theorem Agrees.of_stopped {q : Proc κ} {child : Option (Child κ)} {s : Alive κ}
    (h : Agrees (some q) child) (stopped : q.traced = .stopped s) :
    child = some ⟨q.pid, q.prog, s.1, none⟩ := by
  cases h with
  | gone => cases stopped
  | resumed => cases stopped
  | stopped =>
    cases stopped
    rfl

/-- The process of a living child is where the child is. -/
theorem Agrees.live {p : Option (Proc κ)} {c : Child κ} (h : Agrees p (some c)) :
    ∃ q, p = some q ∧ q.prog = c.prog ∧ ∀ action s, q.traced.At q.prog action s → s.1 = c.tracee := by
  cases h with
  | stopped => exact ⟨_, rfl, rfl, fun action s here => congrArg Prod.fst here⟩
  | resumed => exact ⟨_, rfl, rfl, fun action s here => congrArg Prod.fst here⟩

/-- The effect passes no signal. -/
def Effect.PassesNone : Effect → Prop
  | .ptrace _ r => ∀ data, r.data? = some data → data = 0
  | _ => True

/-- Whatever signals do to processes, the kernel comes with the effects from the first world
to the second, and no effect passes a signal. -/
def Replays (w w' : World κ) : Prop :=
  ∀ p, Agrees p w.child → ∃ labels p', (∀ action, Run (KernelStep action) labels p p') ∧
    w'.log = labels.reduceOption.reverse ++ w.log ∧ (∀ e ∈ labels.reduceOption, e.PassesNone) ∧
    Agrees p' w'.child

instance : Std.Refl (Replays (κ := κ)) := ⟨fun _ p agrees => ⟨[], p, fun _ => .nil, rfl, by simp, agrees⟩⟩

instance : IsTrans (World κ) Replays := ⟨fun w v w' first second p agrees => by
  obtain ⟨ls, q, run, log, passes, agrees⟩ := first p agrees
  obtain ⟨ls', q', run', log', passes', agrees'⟩ := second q agrees
  refine ⟨ls ++ ls', q', fun action => (run action).append (run' action), ?_, ?_, agrees'⟩
  · rw [log', log, List.reduceOption_append, List.reverse_append, List.append_assoc]
  · rw [List.reduceOption_append]
    intro e member
    exact (List.mem_append.mp member).elim (passes e) (passes' e)⟩

/-- A single effect, with the kernel's step. -/
theorem Replays.of_step {w w' : World κ} {e : Effect} (log : w'.log = e :: w.log) (passes : e.PassesNone)
    (step : ∀ p, Agrees p w.child → ∃ p', (∀ action, KernelStep action (some e) p p') ∧
      Agrees p' w'.child) : Replays w w' := by
  intro p agrees
  obtain ⟨p', moved, agrees'⟩ := step p agrees
  refine ⟨[some e], p', fun action => .single (moved action), log, fun e' member => ?_, agrees'⟩
  obtain rfl : e' = e := by simpa using member
  exact passes

/-- What a request makes of our child. -/
def Child.request (c : Child κ) : Request → Child κ
  | .cont _ => { c with resumed := some .cont }
  | .singleStep _ => { c with resumed := some .singleStep }
  | r => { c with tracee := r.apply c.tracee }

theorem stopped?_eq_some {w : World κ} {pid : Int} {c : Child κ} (found : w.stopped? pid = some c) :
    w.child = some c ∧ c.pid = pid ∧ c.resumed = none := by
  unfold World.stopped? at found
  split at found
  · cases found
  · next c' alive =>
    split at found
    · next both =>
      cases found
      exact ⟨alive, both⟩
    · cases found

variable {w : World κ} {pid : Int} {r : Request} {c : Child κ}

theorem replays_refused (none : w.stopped? pid = none) (passes : (Effect.ptrace pid r).PassesNone) :
    Replays w { w with log := .ptrace pid r :: w.log } := by
  refine .of_step rfl passes fun p agrees => ⟨p, fun action => .refused r ?_, agrees⟩
  rintro q s rfl rfl stopped
  simp [World.stopped?, agrees.of_stopped stopped] at none

theorem replays_request (found : w.stopped? pid = some c) (passes : (Effect.ptrace pid r).PassesNone) :
    Replays w { w with child := some (c.request r), log := .ptrace pid r :: w.log } := by
  obtain ⟨alive, rfl, idle⟩ := stopped?_eq_some found
  refine .of_step rfl passes fun p agrees => ?_
  rw [alive] at agrees
  cases agrees with
  | resumed => cases idle
  | @stopped pid prog t sig writes =>
    refine ⟨_, fun action => .request (q := ⟨pid, prog, .stopped (t, sig), writes⟩) r rfl, ?_⟩
    cases r with
    | cont data =>
      obtain rfl : data = 0 := passes data rfl
      exact .resumed
    | singleStep data =>
      obtain rfl : data = 0 := passes data rfl
      exact .resumed
    | peekText addr => exact .stopped
    | pokeText addr word => exact .stopped
    | getRegs => exact .stopped
    | setRegs regs => exact .stopped
    | setOptions => exact .stopped

/-- A command that makes one request. -/
theorem replays_requesting {α : Type} {m : Cmd κ α} (pid : Int) (r : Request)
    (passes : (Effect.ptrace pid r).PassesNone)
    (refused : w.stopped? pid = none → final (m w) = { w with log := .ptrace pid r :: w.log })
    (granted : ∀ c, w.stopped? pid = some c →
      final (m w) = { w with child := some (c.request r), log := .ptrace pid r :: w.log }) :
    Replays w (final (m w)) := by
  cases found : w.stopped? pid with
  | none =>
    rw [refused found]
    exact replays_refused found passes
  | some c =>
    rw [granted c found]
    exact replays_request found passes

/-- A request that changes nothing. -/
theorem replays_kept (kept : ∀ c, w.stopped? pid = some c → c.request r = c)
    (passes : (Effect.ptrace pid r).PassesNone) : Replays w { w with log := .ptrace pid r :: w.log } := by
  cases found : w.stopped? pid with
  | none => exact replays_refused found passes
  | some c =>
    have done := replays_request found passes
    rw [kept c found, ← (stopped?_eq_some found).1] at done
    exact done

theorem replays_wait {n : Nat} (w : World κ) (pid : Int) : Replays w (final (waitpid n pid w)) := by
  cases alive : w.child with
  | none =>
    have same : waitpid n pid w = .ok none w := by simp [waitpid, alive]
    rw [same]
    exact Std.Refl.refl w
  | some c =>
    by_cases other : c.pid = pid
    swap
    · have same : waitpid n pid w = .ok none w := by simp [waitpid, alive, other]
      rw [same]
      exact Std.Refl.refl w
    cases resumed : c.resumed with
    | none =>
      have same : waitpid n pid w = .error .waiting w := by simp [waitpid, alive, other, resumed]
      rw [same]
      exact Std.Refl.refl w
    | some how =>
      cases answer : c.prog.answer n how c.tracee with
      | none =>
        have same : waitpid n pid w = .error .waiting w := by
          simp [waitpid, alive, other, resumed, answer]
        rw [same]
        exact Std.Refl.refl w
      | some e =>
        have moved : waitpid n pid w = .ok (some e.status)
            { w with child := e.tracee?.map fun t => { c with tracee := t, resumed := none } } := by
          simp [waitpid, alive, other, resumed, answer]
        rw [moved]
        intro p agrees
        rw [alive] at agrees
        cases agrees with
        | stopped => cases resumed
        | @resumed pid prog t how' writes =>
          cases resumed
          refine ⟨[none], some ⟨pid, prog, e.traced, writes⟩, fun action => .single ?_, rfl, by simp, ?_⟩
          · exact .event (q := ⟨pid, prog, .resumed (t, none) how, writes⟩) rfl answer
          · cases e with
            | next t' => exact .stopped
            | stop sig t' => exact .stopped
            | exited code => exact .gone
            | signaled sig core => exact .gone

theorem stopped?_log (w : World κ) (log : List Effect) (pid : Int) :
    World.stopped? { w with log := log } pid = w.stopped? pid := rfl

theorem replays (host : Host κ) : Keeps host (Replays (κ := κ)) where
  stderr text w := .of_step (e := .stderr text) rfl trivial fun p agrees =>
    ⟨p, fun _ => .stderr text, agrees⟩
  peek pid addr w := replays_kept (r := .peekText addr) (fun _ _ => rfl) fun data none => by cases none
  regs pid w := replays_kept (r := .getRegs) (fun _ _ => rfl) fun data none => by cases none
  own w w' child log := fun p agrees => ⟨[], p, fun _ => .nil, log, by simp, child ▸ agrees⟩
  poke pid addr word w := by
    refine replays_requesting pid (.pokeText addr word) (fun data none => by cases none)
      (fun none => ?_) fun c found => ?_
    · simp only [pokeText, emit, bind_apply, modify_apply, get_apply, stopped?_log, none, pure_apply, final]
    · have alive := (stopped?_eq_some found).1
      simp only [pokeText, emit, bind_apply, modify_apply, get_apply, stopped?_log, found,
        Child.request, Request.apply]
      cases poke c.tracee.mem addr word with
      | none => rw [Option.getD_none, ← alive]; rfl
      | some mem => rfl
  setRegs pid regs w := by
    refine replays_requesting pid (.setRegs regs) (fun data none => by cases none)
      (fun none => ?_) fun c found => ?_
    · simp only [setRegs, emit, bind_apply, modify_apply, get_apply, stopped?_log, none, pure_apply, final]
    · simp only [setRegs, emit, bind_apply, modify_apply, get_apply, stopped?_log, found, setTracee,
        pure_apply, final, Child.request, Request.apply]
  resume pid how w := by
    refine replays_requesting pid how.request (fun data passed => ?_) (fun none => ?_) fun c found => ?_
    · cases how <;> exact (Option.some.inj passed).symm
    · simp only [resumeChild, emit, bind_apply, modify_apply, get_apply, stopped?_log, none, pure_apply, final]
    · simp only [resumeChild, emit, bind_apply, modify_apply, get_apply, stopped?_log, found, pure_apply,
        final]
      cases how <;> rfl
  wait n pid w := replays_wait w pid
  fork w := .of_step (e := .fork) rfl trivial fun p agrees => ⟨p, fun _ => .noFork, agrees⟩
  born w pid prog _ _ := fun p _ => by
    refine ⟨[some .fork, some (.ptrace pid .setOptions)], some ⟨pid, prog, .stopped (prog.image, none), []⟩,
      fun action => ?_, rfl, ?_, .stopped⟩
    · exact .cons (.fork pid prog)
        (.single (.request (q := ⟨pid, prog, .stopped (prog.image, none), []⟩) .setOptions rfl))
    · intro e member
      obtain rfl | rfl : e = .fork ∨ e = .ptrace pid .setOptions := by simpa using member
      · exact trivial
      · exact fun data none => by cases none

end Replaying

section Ignoring

/-- The kernel, in which signals do to processes what `action` says, and the debugger have
come to `w`. The debuggee has reacted to its signals as `reaction` says. -/
def Reacts (action reaction : Action κ) (w : World κ) : Prop :=
  ∃ labels p, Run (KernelStep action) labels none p ∧ w.log = labels.reduceOption.reverse ∧
    Agrees p w.child ∧ ∀ q, p = some q → q.Undisturbed reaction

variable {host : Host κ} {w : World κ} {cs : List Command}

theorem replays_run (run : Run (Step host) cs (World.init host) w) : Replays (World.init host) w := by
  refine run.invariant (I := Replays (World.init host)) (fun cmd v v' before step => ?_) (Std.Refl.refl _)
  obtain ⟨n, ok⟩ := step
  exact IsTrans.trans _ _ _ before (((replays host).exec n cmd).ok ok)

/-- In every run no request passes a signal, and whatever the handlers and the default actions
are, the debuggee runs as if it ignored every signal. -/
theorem signals_ignored (run : Run (Step host) cs (World.init host) w) :
    (∀ e ∈ w.log, e.PassesNone) ∧ ∀ action, Reacts action ignore w := by
  obtain ⟨labels, p, kernel, log, passes, agrees⟩ := replays_run run none .absent
  have log : w.log = labels.reduceOption.reverse := log.trans (List.append_nil _)
  refine ⟨fun e member => ?_, fun action => ⟨labels, p, kernel action, log, agrees, fun q found => ?_⟩⟩
  · rw [log, List.mem_reverse] at member
    exact passes e member
  · refine undisturbed_of_obedient ((kernel action).mono fun l member p p' step => ⟨step, ?_⟩) found
    rintro q s r data rfl - rfl resumes
    obtain rfl := passes _ (List.reduceOption_mem_iff.mpr member) data resumes
    exact obeys_zero

end Ignoring

section Samples

open Sample

def sigterm : Signal := ⟨15, by decide⟩

/-- A process that gets a `SIGTERM` before its first instruction; it counts what has happened. -/
def reached : Program Nat where
  image := ⟨setRip (fun _ => 0) 0x401fff, fun _ => none, 0⟩
  step t := if t.hidden = 0 then .stop sigterm { t with hidden := 1 } else .next { t with hidden := 2 }

/-- The default action of `SIGTERM`. -/
def terminate : Action Nat := fun sig _ => .signaled sig false

def reachedHost : Host Nat where
  file := (host [0x90]).file
  exec _ := some reached
  fork := (host [0x90]).fork
  csOpen := true
  csDisasm := (host [0x90]).csDisasm
  maps _ := none
  uninit := (host [0x90]).uninit

def Effect.isWrite : Effect → Bool
  | .ptrace _ r => r.isWrite
  | _ => false

theorem mem_writes_request {q : Proc κ} {s : Alive κ} {r r' : Request} :
    r ∈ (q.request s r').writes ↔ r ∈ q.writes ∨ r'.isWrite = true ∧ r = r' := by
  cases r' <;> simp [Proc.request, Request.isWrite]

/-- What has been written into a process is in the log. -/
theorem writes_logged {action : Action κ} {labels : List (Option Effect)} {p : Option (Proc κ)}
    (run : Run (KernelStep action) labels none p) : ∀ q, p = some q → ∀ r ∈ q.writes,
      r.isWrite = true ∧ ∃ pid, some (Effect.ptrace pid r) ∈ labels := by
  refine run.past (P := fun labels p => ∀ q, p = some q → ∀ r ∈ q.writes,
    r.isWrite = true ∧ ∃ pid, some (Effect.ptrace pid r) ∈ labels) (fun q found => by cases found) ?_
  rintro ls l p p' - before step q rfl r written
  have older {q : Proc κ} (found : p = some q) (written : r ∈ q.writes) :
      r.isWrite = true ∧ ∃ pid, some (Effect.ptrace pid r) ∈ ls ++ [l] := by
    obtain ⟨writes, pid, member⟩ := before q found r written
    exact ⟨writes, pid, List.mem_append_left _ member⟩
  cases step with
  | stderr text => exact older rfl written
  | noFork => exact older rfl written
  | fork pid prog => cases written
  | refused r' => exact older rfl written
  | event => exact older rfl written
  | @request q s r' stopped =>
    obtain old | ⟨writes, rfl⟩ := mem_writes_request.mp written
    · exact older rfl old
    · exact ⟨writes, q.pid, by simp⟩

def Event.stop? : Event κ → Option (Signal × Tracee κ)
  | .stop sig t => some (sig, t)
  | .next _ | .exited _ | .signaled _ _ => none

theorem run_reached : ∃ w c, Run (Step reachedHost) [.load "nop", .start, .cont, .si]
      (World.init reachedHost) w ∧ w.child = some c ∧ c.tracee.hidden = 2 ∧
    (∃ t, c.prog.step c.prog.image = .stop sigterm t ∧ t.hidden = 1) ∧
    c.prog.image.hidden = 0 ∧ w.log.any Effect.isWrite = false := by
  have summary : ((session reachedHost 40 [.load "nop", .start, .cont, .si]).bind fun w =>
      w.child.bind fun c => (c.prog.step c.prog.image).stop?.map fun st =>
        (c.tracee.hidden, st.1, st.2.hidden, c.prog.image.hidden, w.log.any Effect.isWrite)) =
      some (2, sigterm, 1, 0, false) := by
    decide +kernel
  obtain ⟨w, ended, rest⟩ := Option.bind_eq_some_iff.mp summary
  obtain ⟨c, alive, rest⟩ := Option.bind_eq_some_iff.mp rest
  obtain ⟨st, stops, facts⟩ := Option.map_eq_some_iff.mp rest
  simp only [Prod.mk.injEq] at facts
  obtain ⟨here, sig, hidden, start, log⟩ := facts
  have stops : c.prog.step c.prog.image = .stop st.1 st.2 := by
    cases event : c.prog.step c.prog.image with
    | stop sig t =>
      rw [event] at stops
      cases stops
      rfl
    | next t => simp [event, Event.stop?] at stops
    | exited code => simp [event, Event.stop?] at stops
    | signaled sig core => simp [event, Event.stop?] at stops
  rw [sig] at stops
  exact ⟨w, c, run_of_session ended, alive, here, ⟨st.2, stops, hidden⟩, start, log⟩

theorem signals_ignored_reached : ∃ w c, w.child = some c ∧ c.tracee.hidden = 2 ∧
    Reacts terminate ignore w := by
  obtain ⟨w, c, run, alive, here, -⟩ := run_reached
  exact ⟨w, c, alive, here, (signals_ignored run).2 terminate⟩

/-- A process on its own dies from `SIGTERM`; under the debugger it goes on. -/
theorem sigterm_swallowed : ∃ w, Run (Step reachedHost) [.load "nop", .start, .cont, .si]
    (World.init reachedHost) w ∧ ¬ Reacts terminate terminate w := by
  obtain ⟨w, c, run, alive, here, ⟨t, stops, hidden⟩, start, log⟩ := run_reached
  refine ⟨w, run, ?_⟩
  rintro ⟨labels, p, kernel, logged, agrees, undisturbed⟩
  rw [alive] at agrees
  obtain ⟨q, rfl, prog, same⟩ := agrees.live
  obtain ⟨ls, s, own, written, at_s⟩ := undisturbed q rfl
  have unwritten : q.writes = [] := by
    rw [List.eq_nil_iff_forall_not_mem]
    intro r member
    obtain ⟨writes, pid, label⟩ := writes_logged kernel q rfl r member
    have inLog : Effect.ptrace pid r ∈ w.log := by
      rw [logged, List.mem_reverse, List.reduceOption_mem_iff]
      exact label
    have unwritten := List.any_eq_false.mp log _ inLog
    exact unwritten writes
  rw [unwritten, List.reduceOption_eq_nil_iff] at written
  obtain ⟨k, rfl⟩ := written
  rw [prog] at own
  have waits := own.invariant_on
    (I := fun s => s = (c.prog.image, none) ∨ s.2 = some sigterm ∧ s.1.hidden = 1)
    (fun l member s s' before step => ?_) (.inl rfl)
  · have there := same _ s at_s
    obtain rfl | ⟨-, counted⟩ := waits
    · rw [← there, start] at here
      cases here
    · rw [there, here] at counted
      cases counted
  · obtain rfl := List.eq_of_mem_replicate member
    obtain ⟨t', sig⟩ := s
    obtain atStart | ⟨waiting, -⟩ := before
    · cases atStart
      cases step with
      | next moved => cases stops.symm.trans moved
      | stop moved =>
        cases stops.symm.trans moved
        exact .inr ⟨rfl, hidden⟩
    · obtain rfl : sig = some sigterm := waiting
      cases step with
      | next moved => cases moved
      | stop moved => cases moved

end Samples

end UnixProgramming.Sdb
