import UnixProgramming.Sdb.Patching

/-!
# Hits

After a stop `cont` compares `rip - 1` with the breakpoints and reports the first one that
has a recorded instruction. The debuggee has hit a breakpoint when it has just executed
the `int3` planted there. The two agree as long as no other stop leaves `rip` one past a
breakpoint and every breakpoint that is hit has a recorded instruction.
-/

namespace UnixProgramming.Sdb

open Memory Transition Stateful

variable {κ : Type}

section Stops

/-- The debuggee gets from one instruction to another without stopping. -/
inductive Program.Reaches (p : Program κ) : Tracee κ → Tracee κ → Prop where
  | here {t} : Reaches p t t
  | next {t t₁ t₂} : p.step t = .next t₁ → Reaches p t₁ t₂ → Reaches p t t₂

/-- The breakpoint instruction traps behind itself and changes nothing else. -/
def Program.Traps (p : Program κ) : Prop :=
  ∀ t, t.mem (rip t.regs) = some int3 → p.step t = .stop sigtrap (trapped t)

variable {p : Program κ} {t t₀ t' : Tracee κ} {sig : Signal}

theorem Program.Reaches.resume (ran : p.Reaches t t₀) (stops : p.step t₀ = .stop sig t') :
    ∃ n, p.resume n t = some (.stop sig t') := by
  induction ran with
  | here => exact ⟨1, by rw [Program.resume, stops]⟩
  | next moved _ ih =>
    obtain ⟨n, answer⟩ := ih stops
    exact ⟨n + 1, by rw [Program.resume, moved]; exact answer⟩

/-- The debuggee is about to execute the `int3` of a breakpoint at `a`. -/
def Hits (w : World κ) (t₀ : Tracee κ) (a : Addr) : Prop :=
  a ∈ w.info.addrs ∧ rip t₀.regs = a ∧ t₀.mem a = some int3

theorem Hits.stop {w : World κ} {a : Addr} (hits : Hits w t₀ a) (traps : p.Traps)
    (stops : p.step t₀ = .stop sig t') : t' = trapped t₀ := by
  obtain ⟨-, rfl, planted⟩ := hits
  have stopped := stops.symm.trans (traps t₀ planted)
  exact (Event.stop.inj stopped).2

theorem Hits.rip {w : World κ} {a : Addr} (hits : Hits w t₀ a) (traps : p.Traps)
    (stops : p.step t₀ = .stop sig t') : Sdb.rip t'.regs = a + 1 := by
  rw [hits.stop traps stops, ← hits.2.1]
  exact rip_setRip _ _

end Stops

section Report

def LogGrows (w w' : World κ) : Prop := w.log <:+ w'.log

instance : Std.Refl (LogGrows (κ := κ)) := ⟨fun _ => List.suffix_refl _⟩

instance : IsTrans (World κ) LogGrows := ⟨fun _ _ _ => List.IsSuffix.trans⟩

theorem LogGrows.drives : Drives (LogGrows (κ := κ)) :=
  .of_log (fun _ => .modify fun _ => List.suffix_cons _ _) fun _ _ same => by
    rw [LogGrows, same]

/-- The loop of `cont` prints the instruction recorded at the breakpoint it settles on. -/
theorem reportHit_says (info : ProgInfo) (bp : Breakpoint) (ins : List Instruction1)
    (prog : Program κ) (t : Tracee κ) (forks : Nat) (log : List Effect) {bps : List Breakpoint}
    {it : Breakpoint} (settled : hit? ins t.regs bps = some it) :
    ∃ i ∈ ins, i.addr = it.addr ∧ ∃ e l, log <:+ l ∧
      reportHit t.regs bps ⟨info, bp, ins, some ⟨info.pid, prog, t, none⟩, forks, log⟩ =
        .ok true ⟨info, it, ins, some ⟨info.pid, prog, rewind t, none⟩, forks,
          e :: .stderr (printInstruction i) :: .stderr "** breakpoint @\t" :: l⟩ := by
  induction bps generalizing log with
  | nil => cases settled
  | cons bp' rest ih =>
    rw [hit?_cons] at settled
    by_cases here : bp'.addr = rip t.regs - 1
    · cases found : ins.find? fun i => i.addr = bp'.addr with
      | none =>
        have unrecorded := find?_eq_none_iff_not_recorded.mp found
        rw [if_neg fun both => unrecorded both.2] at settled
        obtain ⟨i, member, same, e, l, grows, ran⟩ :=
          ih (.stderr "** breakpoint @\t" :: log) settled
        refine ⟨i, member, same, e, l, (List.suffix_cons _ _).trans grows, ?_⟩
        rw [← ran, reportHit, if_pos here]
        simp [stderr, emit, found]
      | some i =>
        have member := List.mem_of_find?_eq_some found
        have same : i.addr = bp'.addr := by simpa using List.find?_some found
        rw [if_pos ⟨here, i, member, same⟩] at settled
        obtain rfl := Option.some.inj settled
        refine ⟨i, member, same, .ptrace info.pid (.setRegs (setRip t.regs (rip t.regs - 1))), log,
          List.suffix_refl _, ?_⟩
        rw [reportHit, if_pos here]
        simp [stderr, emit, found, rewind]
    · rw [if_neg fun both => here both.1] at settled
      rw [reportHit, if_neg here]
      exact ih log settled

variable {w w' : World κ} {c : Child κ} {t t' : Tracee κ} {kept it : Breakpoint} {e : Event κ}
  {status n : Nat}

/-- `cont` has reported the breakpoint at `a` after the stop that left the debuggee as `t'`. -/
structure Reports (w : World κ) (t' : Tracee κ) (a : Addr) (w' : World κ) : Prop where
  said : ∃ i ∈ w.origInstructions, i.addr = a ∧ ∃ e l, w.log <:+ l ∧
    w'.log = e :: .stderr (printInstruction i) :: .stderr "** breakpoint @\t" :: l
  back : rip t'.regs = a + 1 ∧ w'.child.map Child.tracee = some { t' with regs := setRip t'.regs a }
  restore : w'.bpRestore ∈ w.info.bpVec ∧ w'.bpRestore.addr = a

theorem goOn_reports (h : w.Stopped c) (answer : c.prog.resume n c.tracee = some e)
    (left : e.tracee? = some t') (settled : hit? w.origInstructions t'.regs w.info.bpVec = some it)
    (ok : goOn status n w = .ok () w') : Reports w t' it.addr w' := by
  have here : it.addr = rip t'.regs - 1 ∧ Recorded w.origInstructions it.addr := by
    simpa using List.find?_some settled
  obtain ⟨info, bp, ins, prog, t, forks, log, rfl, rfl⟩ := h.shape
  dsimp only at *
  have alive : wifstopped e.status := by simp [left]
  obtain ⟨i, member, same, e', l, grows, ran⟩ := reportHit_says info bp ins prog t' forks
    (.ptrace info.pid .getRegs :: .ptrace info.pid Resume.cont.request :: log) settled
  simp [goOn, Program.answer, answer, left, afterWait, ran] at ok
  have older : log <:+ l := ((List.suffix_cons _ _).trans (List.suffix_cons _ _)).trans grows
  subst ok
  refine ⟨⟨i, member, same, e', l, older, rfl⟩, ⟨?_, ?_⟩, List.mem_of_find?_eq_some settled, rfl⟩
  · rw [here.1, BitVec.sub_add_cancel]
  · rw [here.1]
    rfl

theorem Reports.since {w₀ : World κ} {a : Addr} (h : Reports w t' a w')
    (same : w.origInstructions = w₀.origInstructions ∧ w.info = w₀.info) (grows : LogGrows w₀ w) :
    Reports w₀ t' a w' := by
  obtain ⟨⟨i, member, start, e, l, older, logged⟩, back, listed, restored⟩ := h
  rw [same.1] at member
  rw [same.2] at listed
  exact ⟨⟨i, member, start, e, l, grows.trans older, logged⟩, back, listed, restored⟩

theorem cont_reports {uninit : Nat} (h : w.Stopped c) (running : w.info.state = .running)
    (launch : Launch w c t kept) (answer : c.prog.resume n t = some e)
    (left : e.tracee? = some t') (settled : hit? w.origInstructions t'.regs w.info.bpVec = some it)
    (ok : cont uninit n w = .ok () w') : Reports w t' it.addr w' := by
  have first : LogGrows w { w with log := .ptrace w.info.pid .getRegs :: w.log } :=
    List.suffix_cons _ _
  simp only [cont, bind_apply, get_apply, running, ne_eq, not_true_eq_false, if_false,
    getRegs_of_stopped h] at ok
  cases launch with
  | away far =>
    rw [if_neg far] at ok
    have reported := goOn_reports (w := { w with log := .ptrace w.info.pid .getRegs :: w.log })
      (h.log _) answer left settled ok
    exact reported.since ⟨rfl, rfl⟩ first
  | @stepped t₁ here readable moved still =>
    rw [if_pos here, bind_ok] at ok
    obtain ⟨status, w₁, crossed, ok⟩ := ok
    have longer : LogGrows w w₁ := first.trans ((LogGrows.drives.stepOver n).ok crossed)
    obtain ⟨t₂, l, -, moved', -, rfl⟩ := stepOver_ok (h.log _) crossed
    obtain rfl := Option.some.inj (moved.symm.trans moved')
    have reported := goOn_reports
      (w := { w with
        child := some { c with tracee := rearm w.bpRestore c.tracee t₁ }
        bpRestore := .empty
        log := l })
      (c := { c with tracee := rearm w.bpRestore c.tracee t₁ })
      ⟨rfl, h.pid, h.resumed⟩ answer left settled ok
    exact reported.since ⟨rfl, rfl⟩ longer

end Report

section Coincidence

variable {host : Host κ} {w w' : World κ} {c : Child κ} {t t₀ t' : Tracee κ} {kept : Breakpoint}
  {sig : Signal}

/-- `cont` reports exactly the breakpoint that the debuggee hit, and leaves it alone after
any other stop. -/
def ReportsHits (w : World κ) (t₀ t' : Tracee κ) (w' : World κ) : Prop :=
  (∀ a, Reports w t' a w' ↔ Hits w t₀ a) ∧
    ((∀ a, ¬ Hits w t₀ a) → w'.child.map Child.tracee = some t')

/-- The stop shows in `rip` whether a breakpoint was hit. -/
structure Unambiguous (w : World κ) (t₀ t' : Tracee κ) : Prop where
  hit : ∀ a ∈ w.info.addrs, Recorded w.origInstructions a → rip t'.regs = a + 1 → Hits w t₀ a
  recorded : ∀ a, Hits w t₀ a → Recorded w.origInstructions a

/-- Without a report the debuggee is as the stop left it. -/
theorem reportsHits_of_silent (traps : c.prog.Traps) (stops : c.prog.step t₀ = .stop sig t')
    (silent : hit? w.origInstructions t'.regs w.info.bpVec = none)
    (left : w'.child.map Child.tracee = some t') :
    ReportsHits w t₀ t' w' ↔ Unambiguous w t₀ t' := by
  have apart : ∀ a ∈ w.info.addrs, Recorded w.origInstructions a → rip t'.regs ≠ a + 1 := by
    intro a listed recorded past
    obtain ⟨bp, member, rfl⟩ := List.mem_map.mp listed
    have other := List.find?_eq_none.mp silent bp member
    rw [past, BitVec.add_sub_cancel] at other
    simp [recorded] at other
  have unreported (a : Addr) : ¬ Reports w t' a w' := by
    rintro ⟨-, ⟨past, moved⟩, -⟩
    have same := congrArg (fun t => rip t.regs) (Option.some.inj (left.symm.trans moved))
    simp only [rip_setRip, past] at same
    bv_omega
  constructor
  · rintro ⟨exactly, -⟩
    have missed (a : Addr) : ¬ Hits w t₀ a := fun hits => unreported a ((exactly a).mpr hits)
    exact ⟨fun a listed recorded past => absurd past (apart a listed recorded),
      fun a hits => absurd hits (missed a)⟩
  · intro clear
    have missed (a : Addr) : ¬ Hits w t₀ a := fun hits =>
      apart a hits.1 (clear.recorded a hits) (hits.rip traps stops)
    exact ⟨fun a => iff_of_false (unreported a) (missed a), fun _ => left⟩

theorem reportsHits_of_reported {it : Breakpoint} (traps : c.prog.Traps)
    (stops : c.prog.step t₀ = .stop sig t')
    (settled : hit? w.origInstructions t'.regs w.info.bpVec = some it)
    (reported : Reports w t' it.addr w') :
    ReportsHits w t₀ t' w' ↔ Unambiguous w t₀ t' := by
  have listed : it.addr ∈ w.info.addrs := mem_addrs (List.mem_of_find?_eq_some settled)
  have recorded : Recorded w.origInstructions it.addr := by
    have found := List.find?_some settled
    simp only [decide_eq_true_eq] at found
    exact found.2
  have only {a : Addr} (past : rip t'.regs = a + 1) : a = it.addr := by
    have same := past.symm.trans reported.back.1
    bv_omega
  constructor
  · rintro ⟨exactly, -⟩
    have hits := (exactly it.addr).mp reported
    refine ⟨fun a _ _ past => only past ▸ hits, fun a other => ?_⟩
    rw [only (other.rip traps stops)]
    exact recorded
  · intro clear
    have hits := clear.hit it.addr listed recorded reported.back.1
    refine ⟨fun a => ⟨fun again => ?_, fun other => ?_⟩, fun missed => absurd hits (missed _)⟩
    · rw [only again.back.1]
      exact hits
    · rw [only (other.rip traps stops)]
      exact reported

/-- `cont` reports exactly the breakpoint that was hit if and only if the stop is not one
past a recorded breakpoint for another reason and the breakpoint that was hit, if any, has
a recorded instruction. -/
theorem reportsHits_iff (h : w.Stopped c) (running : w.info.state = .running)
    (traps : c.prog.Traps) (launch : Launch w c t kept) (ran : c.prog.Reaches t t₀)
    (stops : c.prog.step t₀ = .stop sig t') :
    (∃ w', Step host .cont w w') ∧
      ∀ w', Step host .cont w w' → (ReportsHits w t₀ t' w' ↔ Unambiguous w t₀ t') := by
  obtain ⟨n, answer⟩ := ran.resume stops
  refine ⟨?_, fun w' ⟨k, ok⟩ => ?_⟩
  · have returns : ∃ w', exec host n .cont w = .ok () w' := cont_returns h running launch answer
    exact returns.imp fun _ ok => ⟨n, ok⟩
  obtain ⟨t₁, kept₁, launch₁, landing⟩ := cont_ok h running ok
  obtain ⟨rfl, rfl⟩ := launch.unique launch₁
  cases landing with
  | hit l answer' left settled =>
    obtain rfl := Program.resume_unique answer' answer
    obtain rfl := Option.some.inj left
    exact reportsHits_of_reported traps stops settled
      (cont_reports h running launch answer' rfl settled ok)
  | stop l answer' left silent =>
    obtain rfl := Program.resume_unique answer' answer
    obtain rfl := Option.some.inj left
    exact reportsHits_of_silent traps stops silent rfl
  | exited l answer' => cases Program.resume_unique answer' answer
  | signaled l answer' => cases Program.resume_unique answer' answer

end Coincidence

section Samples

open Sample

theorem sample_traps (text : List Byte) : (sample text).Traps := (sample_lawful text).trap

/-- A session on a sample whose debuggee lives. -/
theorem stopped_of_session {text : List Byte} {path : String} {cs : List Command} {n : Nat}
    {w : World Unit} (ended : session (host text) n (.load path :: .start :: cs) = some w)
    (noLoad : ∀ cmd ∈ cs, ∀ path, cmd ≠ .load path) {c : Child Unit} (alive : w.child = some c) :
    Reachable (host text) w ∧ w.Stopped c ∧ w.info.state = .running ∧ c.prog.Traps := by
  obtain ⟨reached, stopped, running, now⟩ := session_of_sample ended noLoad alive
  exact ⟨reached, stopped, running, now.prog ▸ sample_traps text⟩

/-- `nop`, and a byte that starts no instruction. -/
def fault : List Byte := [0x90, 0x06]

theorem reportsHits_iff_fault : ∃ w c w', Reachable (host fault) w ∧ w.Stopped c ∧
    Hits w c.tracee 0x401ffe ∧ Step (host fault) .cont w w' ∧
    ReportsHits w c.tracee (trapped c.tracee) w' := by
  have summary : ((session (host fault) 40 [.load "fault", .start, .break 0x401ffe]).bind fun w =>
      w.child.map fun c => (w.info.addrs, decide (Recorded w.origInstructions 0x401ffe),
        w.bpRestore.addr, rip c.tracee.regs, c.tracee.mem 0x401ffe)) =
      some ([0x401ffe], true, 0, 0x401ffe, some int3) := by
    decide +kernel
  obtain ⟨w, ended, rest⟩ := Option.bind_eq_some_iff.mp summary
  obtain ⟨c, alive, facts⟩ := Option.map_eq_some_iff.mp rest
  simp only [Prod.mk.injEq, decide_eq_true_eq] at facts
  obtain ⟨addrs, recorded, unset, here, planted⟩ := facts
  obtain ⟨reached, stopped, running, traps⟩ := stopped_of_session ended (by simp) alive
  have hits : Hits w c.tracee 0x401ffe := ⟨by simp [addrs], here, planted⟩
  have far : rip c.tracee.regs ≠ w.bpRestore.addr := by
    rw [here, unset]
    decide
  have clear : Unambiguous w c.tracee (trapped c.tracee) := by
    refine ⟨fun a listed _ _ => ?_, fun a other => ?_⟩
    · rw [addrs, List.mem_singleton] at listed
      exact listed ▸ hits
    · rw [← other.2.1, here]
      exact recorded
  obtain ⟨⟨w', step⟩, exactly⟩ : (∃ w', Step (host fault) .cont w w') ∧
      ∀ w', Step (host fault) .cont w w' → (ReportsHits w c.tracee (trapped c.tracee) w' ↔
        Unambiguous w c.tracee (trapped c.tracee)) :=
    reportsHits_iff stopped running traps (.away far) .here (traps _ (here ▸ planted))
  exact ⟨w, c, w', reached, stopped, hits, step, (exactly w' step).mpr clear⟩

/-- `si` has stepped over the `nop`, `break` plants a breakpoint on it, and the illegal
instruction behind it is taken for the `int3`. -/
theorem cont_misreports_fault : ∃ w c t' w', Reachable (host fault) w ∧ w.Stopped c ∧
    w.info.state = .running ∧ c.prog.Traps ∧ Launch w c c.tracee w.bpRestore ∧
    c.prog.step c.tracee = .stop sigill t' ∧ Step (host fault) .cont w w' ∧
    ¬ ReportsHits w c.tracee t' w' := by
  have summary : ((session (host fault) 40 [.load "fault", .start, .si, .break 0x401ffe]).bind fun w =>
      w.child.bind fun c =>
        match c.prog.step c.tracee with
        | .stop sig t' => some (sig, w.bpRestore.addr, rip c.tracee.regs,
            hit? w.origInstructions t'.regs w.info.bpVec)
        | _ => none) = some (sigill, 0, 0x401fff, some ⟨0x401ffe, 0x90⟩) := by
    decide +kernel
  obtain ⟨w, ended, rest⟩ := Option.bind_eq_some_iff.mp summary
  obtain ⟨c, alive, rest⟩ := Option.bind_eq_some_iff.mp rest
  obtain ⟨reached, stopped, running, traps⟩ := stopped_of_session ended (by simp) alive
  cases stops : c.prog.step c.tracee with
  | next t' | exited code | signaled sig core => simp [stops] at rest
  | stop sig t' =>
    simp only [stops, Option.some.injEq, Prod.mk.injEq] at rest
    obtain ⟨rfl, unset, here, settled⟩ := rest
    have launch : Launch w c c.tracee w.bpRestore := by
      refine .away ?_
      rw [here, unset]
      decide
    have answer : c.prog.resume 1 c.tracee = some (.stop sigill t') := by
      rw [Program.resume, stops]
    obtain ⟨w', ok⟩ : ∃ w', exec (host fault) 1 .cont w = .ok () w' :=
      cont_returns stopped running launch answer
    have reported := cont_reports stopped running launch answer rfl settled ok
    refine ⟨w, c, t', w', reached, stopped, running, traps, launch, stops, ⟨1, ok⟩, ?_⟩
    rintro ⟨exactly, -⟩
    obtain ⟨-, at_bp, -⟩ := (exactly 0x401ffe).mp reported
    rw [here] at at_bp
    exact absurd at_bp (by decide)

end Samples

end UnixProgramming.Sdb
