import Mathlib.Data.List.Chain
import UnixProgramming.Sdb.Simulation

/-!
# Every visit of a breakpoint

The program runs through a sequence of states by itself, and some of these are at a
breakpoint. The calls of `cont` stop at those, one after the other: none is left out and
none is reported twice. Behind the last of them the program comes to its own end.
-/

namespace UnixProgramming.Sdb

open Memory Transition

variable {κ : Type}

/-- No breakpoint cuts into the instruction, and one that starts there can be left: `cont`
can write its byte back, and the instruction leaves the seven bytes behind alone. -/
structure Passable (p : Program κ) (len : Addr → Nat) (bps : List Addr) (t : Tracee κ) : Prop where
  intact : Intact len bps t
  readable : rip t.regs ∈ bps → Readable t.mem (rip t.regs)
  gentle : rip t.regs ∈ bps → (p.step t).KeepsTail (rip t.regs) t
  nonzero : rip t.regs ∈ bps → rip t.regs ≠ 0

/-- One step of the program over an instruction that `sdb` can get past. -/
def Passes (p : Program κ) (len : Addr → Nat) (bps : List Addr) (t t' : Tracee κ) : Prop :=
  p.step t = .next t' ∧ Passable p len bps t

/-- The states that the program runs through behind `t`. -/
def Trail (p : Program κ) (len : Addr → Nat) (bps : List Addr) (t : Tracee κ) (ts : List (Tracee κ)) :
    Prop := (t :: ts).IsChain (Passes p len bps)

section Plain

variable {p : Program κ} {len : Addr → Nat} {bps : List Addr} {t t' : Tracee κ}
  {ins : List Instruction1}

/-- Up to the first breakpoint the plain debugger only steps. -/
theorem runTo_trail {ts : List (Tracee κ)} (away : ∀ u ∈ t :: ts, rip u.regs ∉ bps)
    (trail : Trail p len bps t (ts ++ [t'])) (here : rip t'.regs ∈ bps) :
    ∃ n, p.runTo len bps n t = some t' := by
  induction ts generalizing t with
  | nil =>
    rcases (List.isChain_pair.mp trail) with ⟨moved, passable⟩
    refine ⟨2, ?_⟩
    rw [Program.runTo, if_neg (away t List.mem_cons_self), if_pos passable.intact, moved]
    exact if_pos here
  | cons u ts ih =>
    rcases List.isChain_cons_cons.mp trail with ⟨⟨moved, passable⟩, rest⟩
    rcases ih (fun v listed => away v (List.mem_cons_of_mem _ listed)) rest with ⟨n, reached⟩
    refine ⟨n + 1, ?_⟩
    rw [Program.runTo, if_neg (away t List.mem_cons_self), if_pos passable.intact, moved]
    exact reached

/-- It leaves the breakpoint that was reported last, -/
theorem leave_passes {reported : Option Addr} (here : reported = some (rip t.regs))
    (passes : Passes p len bps t t') (armed : rip t.regs ∈ bps) :
    Plain.leave p len ⟨t, bps, reported⟩ = some t' := by
  rw [Plain.leave, if_pos here, if_pos ⟨passes.2.intact, passes.2.readable armed⟩, passes.1]

/-- and stays where it is elsewhere. -/
theorem leave_away {reported : Option Addr} (away : reported ≠ some (rip t.regs)) :
    Plain.leave p len ⟨t, bps, reported⟩ = some t := if_neg away

variable (ins) in
/-- `cont` of the plain debugger goes to the next breakpoint of the trail. -/
theorem plain_cont {ts : List (Tracee κ)} (reported : Option Addr) (nonzero : rip t.regs ≠ 0)
    (stopped : rip t.regs ∈ bps ↔ reported = some (rip t.regs)) (away : ∀ u ∈ ts, rip u.regs ∉ bps)
    (trail : Trail p len bps t (ts ++ [t'])) (here : rip t'.regs ∈ bps) :
    ∃ n, Plain.exec p len ins n .cont ⟨t, bps, reported⟩ = some ⟨t', bps, some (rip t'.regs)⟩ := by
  have goes {u : Tracee κ} {n : Nat} (left : Plain.leave p len ⟨t, bps, reported⟩ = some u)
      (reached : p.runTo len bps n u = some t') :
      Plain.exec p len ins n .cont ⟨t, bps, reported⟩ = some ⟨t', bps, some (rip t'.regs)⟩ := by
    rw [Plain.exec, if_neg nonzero, left, Option.bind_some, reached]
    rfl
  by_cases at_t : rip t.regs ∈ bps
  · cases ts with
    | nil =>
      refine ⟨1, goes (leave_passes (stopped.mp at_t) (List.isChain_pair.mp trail) at_t) ?_⟩
      rw [Program.runTo, if_pos here]
    | cons u ts =>
      rcases List.isChain_cons_cons.mp trail with ⟨passes, rest⟩
      rcases runTo_trail away rest here with ⟨n, reached⟩
      exact ⟨n, goes (leave_passes (stopped.mp at_t) passes at_t) reached⟩
  · rcases runTo_trail (List.forall_mem_cons.mpr ⟨at_t, away⟩) trail here with ⟨n, reached⟩
    exact ⟨n, goes (leave_away (mt stopped.mpr at_t)) reached⟩

end Plain

section Visits

variable {p : Program κ} {code : Set Addr} {len : Addr → Nat} {bps : List Addr} {host : Host κ}
  {ins : List Instruction1} {w : World κ} {t u : Tracee κ} {ts : List (Tracee κ)} {reported : Option Addr}

/-- The states at a breakpoint. -/
def visits (bps : List Addr) (ts : List (Tracee κ)) : List (Tracee κ) :=
  ts.filter fun t => rip t.regs ∈ bps

theorem visits_cons {us : List (Tracee κ)} (visited : visits bps ts = u :: us) (trail : Trail p len bps t ts) :
    ∃ ts₁ ts₂, ts = ts₁ ++ u :: ts₂ ∧ (∀ v ∈ ts₁, rip v.regs ∉ bps) ∧ rip u.regs ∈ bps ∧ visits bps ts₂ = us ∧
      Trail p len bps t (ts₁ ++ [u]) ∧ Trail p len bps u ts₂ := by
  rcases List.filter_eq_cons_iff.mp visited with ⟨ts₁, ts₂, rfl, away, here, rest⟩
  refine ⟨ts₁, ts₂, rfl, fun v listed at_v => away v listed (decide_eq_true at_v), of_decide_eq_true here, rest, ?_⟩
  exact List.isChain_cons_split.mp trail

theorem away_of_visits_nil (unvisited : visits bps ts = []) : ∀ v ∈ ts, rip v.regs ∉ bps := fun v listed armed => by
  have visit : v ∈ visits bps ts := List.mem_filter.mpr ⟨listed, decide_eq_true armed⟩
  rw [unvisited] at visit
  cases visit

/-- Where the program goes on, the state is passable. -/
theorem Trail.passable (trail : Trail p len bps t ts) (more : ts ≠ []) : Passable p len bps t := by
  cases ts with
  | nil => exact absurd rfl more
  | cons u ts => exact (List.isChain_cons_cons.mp trail).1.2

variable (host) in
/-- One `cont` stops at the next visit. -/
theorem Matches.visit (lawful : Lawful p code len) (h : Matches p code ins w ⟨t, bps, reported⟩)
    (nonzero : rip t.regs ≠ 0) (stopped : rip t.regs ∈ bps ↔ reported = some (rip t.regs))
    (away : ∀ v ∈ ts, rip v.regs ∉ bps) (trail : Trail p len bps t (ts ++ [u])) (here : rip u.regs ∈ bps) :
    (∃ w', Step host .cont w w') ∧
      ∀ w', Step host .cont w w' → Matches p code ins w' ⟨u, bps, some (rip u.regs)⟩ := by
  rcases plain_cont ins reported nonzero stopped away trail here with ⟨n, went⟩
  refine h.cont lawful (fun same => ?_) went
  exact (trail.passable (by simp)).gentle (stopped.mpr same)

/-- The visits of breakpoints, from a state that matches the plain debugger's. -/
theorem Matches.visits (lawful : Lawful p code len) (h : Matches p code ins w ⟨t, bps, reported⟩)
    (nonzero : rip t.regs ≠ 0) (stopped : rip t.regs ∈ bps ↔ reported = some (rip t.regs))
    (trail : Trail p len bps t ts) {k : Nat} (visit : (visits bps ts)[k]? = some u) :
    (∃ w', Run (Step host) (List.replicate (k + 1) .cont) w w') ∧
      ∀ w', Run (Step host) (List.replicate (k + 1) .cont) w w' →
        Matches p code ins w' ⟨u, bps, some (rip u.regs)⟩ := by
  induction k generalizing w t ts reported with
  | zero =>
    cases visited : Sdb.visits bps ts with
    | nil => simp [visited] at visit
    | cons v vs =>
      rw [visited] at visit
      cases visit
      rcases visits_cons visited trail with ⟨ts₁, ts₂, -, away, here, -, trail, -⟩
      rcases h.visit host lawful nonzero stopped away trail here with ⟨⟨w', went⟩, all⟩
      refine ⟨⟨w', .single went⟩, fun w' run => ?_⟩
      cases run with
      | cons head rest =>
        cases rest
        exact all _ head
  | succ k ih =>
    cases visited : Sdb.visits bps ts with
    | nil => simp [visited] at visit
    | cons v vs =>
      rw [visited] at visit
      rcases visits_cons visited trail with ⟨ts₁, ts₂, -, away, here, others, trail, onwards⟩
      rcases h.visit host lawful nonzero stopped away trail here with ⟨⟨w₁, went⟩, all⟩
      have later : (Sdb.visits bps ts₂)[k]? = some u := by
        rw [others]
        exact visit
      have more : ts₂ ≠ [] := by
        rintro rfl
        cases later
      have nonzero := (onwards.passable more).nonzero here
      have next {w : World κ} (matched : Matches p code ins w ⟨v, bps, some (rip v.regs)⟩) :=
        ih matched nonzero (iff_of_true here rfl) onwards later
      refine ⟨?_, fun w' run => ?_⟩
      · rcases (next (all w₁ went)).1 with ⟨w', run⟩
        exact ⟨w', .cons went run⟩
      · cases run with
        | cons head rest => exact (next (all _ head)).2 w' rest

end Visits

section Ending

variable {p : Program κ} {code : Set Addr} {len : Addr → Nat} {bps : List Addr} {host : Host κ}
  {ins : List Instruction1} {w w' : World κ} {t u : Tracee κ} {ts : List (Tracee κ)} {reported : Option Addr}
  {exit : BitVec 8}

/-- The program exits in `t`, and not at a breakpoint. -/
structure ExitsAt (p : Program κ) (len : Addr → Nat) (bps : List Addr) (t : Tracee κ) (exit : BitVec 8) :
    Prop where
  exits : p.step t = .exited exit
  intact : Intact len bps t
  away : rip t.regs ∉ bps

/-- The debuggee is gone, and its end reported with the whole status. -/
structure Exited (w w' : World κ) (exit : BitVec 8) : Prop where
  child : w'.child = none
  info : w'.info = .empty
  report : ∃ l, w'.log = .stderr (terminatedNormally w.info.pid (exit.toNat * 256)) :: l

theorem ExitsAt.arm (h : ExitsAt p len bps t exit) (lawful : Lawful p code len) (own : Original p code t)
    (inside : ∀ a ∈ bps, a ∈ code) : p.step (t.arm bps) = .exited exit := by
  have fetched : ∀ x ∈ window (rip t.regs) (len (rip t.regs)), x ∈ code → (t.arm bps).mem x = t.mem x := by
    intro x near _
    rw [Tracee.arm_mem, if_neg fun listed => h.away (h.intact x listed near ▸ listed)]
  have same := lawful.own t (t.arm bps).mem own fetched
  rw [← Tracee.arm_eq_recode inside, h.exits] at same
  exact same

/-- What exits plainly, exits when patched. -/
theorem ExitsAt.resume (h : ExitsAt p len bps u exit) (lawful : Lawful p code len)
    (inside : ∀ a ∈ bps, a ∈ code) (own : Original p code t) (away : ∀ v ∈ t :: ts, rip v.regs ∉ bps)
    (trail : Trail p len bps t ts) (last : (t :: ts).getLast? = some u) :
    ∃ n, p.resume n (t.arm bps) = some (.exited exit) := by
  induction ts generalizing t with
  | nil =>
    have here : t = u := Option.some.inj last
    refine ⟨1, ?_⟩
    rw [here] at own ⊢
    rw [Program.resume, h.arm lawful own inside]
  | cons v ts ih =>
    rcases List.isChain_cons_cons.mp trail with ⟨⟨moved, passable⟩, rest⟩
    rw [List.getLast?_cons_cons] at last
    rcases ih (lawful.original own moved) (fun x listed => away x (List.mem_cons_of_mem _ listed)) rest last
      with ⟨n, answer⟩
    refine ⟨n + 1, ?_⟩
    rw [Program.resume, lawful.step_arm own inside (away t List.mem_cons_self) passable.intact moved]
    exact answer

/-- Behind the last visit `cont` launches the program, and that exits. -/
theorem Matches.runs_out (lawful : Lawful p code len) (h : Matches p code ins w ⟨t, bps, reported⟩)
    (nonzero : rip t.regs ≠ 0) (stopped : rip t.regs ∈ bps ↔ reported = some (rip t.regs))
    (away : ∀ v ∈ ts, rip v.regs ∉ bps) (trail : Trail p len bps t ts)
    (last : (t :: ts).getLast? = some u) (exits : ExitsAt p len bps u exit) :
    ∃ c t₁ bp n, w.Stopped c ∧ Launch w c t₁ bp ∧ c.prog.resume n t₁ = some (.exited exit) := by
  have gentle : Plain.Gentle p ⟨t, bps, reported⟩ := fun same => by
    cases ts with
    | nil =>
      cases last
      exact absurd (stopped.mpr same) exits.away
    | cons v ts => exact (trail.passable (List.cons_ne_nil _ _)).gentle (stopped.mpr same)
  have left : ∃ t₁ ts₁, Plain.leave p len ⟨t, bps, reported⟩ = some t₁ ∧ Trail p len bps t₁ ts₁ ∧
      (∀ v ∈ t₁ :: ts₁, rip v.regs ∉ bps) ∧ (t₁ :: ts₁).getLast? = some u := by
    by_cases at_t : rip t.regs ∈ bps
    · cases ts with
      | nil =>
        cases last
        exact absurd at_t exits.away
      | cons v ts =>
        rcases List.isChain_cons_cons.mp trail with ⟨passes, rest⟩
        exact ⟨v, ts, leave_passes (stopped.mp at_t) passes at_t, rest, away, last⟩
    · exact ⟨t, ts, leave_away (mt stopped.mpr at_t), trail, List.forall_mem_cons.mpr ⟨at_t, away⟩, last⟩
  rcases left with ⟨t₁, ts₁, left, trail, away, last⟩
  rcases h.child with ⟨c, alive, prog, patched⟩
  rcases h.launch lawful prog patched nonzero gentle left with ⟨own, bp, launch⟩
  rcases exits.resume lawful h.inside own away trail last with ⟨n, answer⟩
  exact ⟨c, t₁.arm bps, bp, n, alive, launch, prog ▸ answer⟩

variable (host) in
/-- The last `cont` takes the program to its end. -/
theorem Matches.ending (lawful : Lawful p code len) (h : Matches p code ins w ⟨t, bps, reported⟩)
    (nonzero : rip t.regs ≠ 0) (stopped : rip t.regs ∈ bps ↔ reported = some (rip t.regs))
    (away : ∀ v ∈ ts, rip v.regs ∉ bps) (trail : Trail p len bps t ts)
    (last : (t :: ts).getLast? = some u) (exits : ExitsAt p len bps u exit) :
    (∃ w', Step host .cont w w') ∧ ∀ w', Step host .cont w w' → Exited w w' exit := by
  rcases h.runs_out lawful nonzero stopped away trail last exits with ⟨c, t₁, bp, n, alive, launch, answer⟩
  refine ⟨?_, fun w' ⟨k, ok⟩ => ?_⟩
  · rcases (cont_returns alive h.running launch answer : ∃ w', Sdb.cont host.uninit.status n w = .ok () w')
      with ⟨w', ok⟩
    exact ⟨w', n, ok⟩
  · rcases cont_ok alive h.running ok with ⟨t₂, bp₂, launch₂, landing⟩
    rcases launch.unique launch₂ with ⟨rfl, rfl⟩
    cases landing with
    | hit l answer' left' =>
      cases Program.resume_unique answer answer'
      cases left'
    | stop l answer' left' =>
      cases Program.resume_unique answer answer'
      cases left'
    | exited l answer' =>
      cases Program.resume_unique answer answer'
      exact ⟨rfl, rfl, l, rfl⟩
    | signaled l answer' => cases Program.resume_unique answer answer'

/-- The next visit on the way to the exit is not where the program exits. -/
theorem visits_onwards {vs : List (Tracee κ)} {v : Tracee κ} (visited : Sdb.visits bps ts = v :: vs)
    (trail : Trail p len bps t ts) (last : (t :: ts).getLast? = some u) (exits : ExitsAt p len bps u exit) :
    ∃ ts₁ ts₂, (∀ v ∈ ts₁, rip v.regs ∉ bps) ∧ rip v.regs ∈ bps ∧ Sdb.visits bps ts₂ = vs ∧
      Trail p len bps t (ts₁ ++ [v]) ∧ Trail p len bps v ts₂ ∧ (v :: ts₂).getLast? = some u ∧
      rip v.regs ≠ 0 := by
  rcases visits_cons visited trail with ⟨ts₁, ts₂, split, away, here, others, trail, onwards⟩
  have last₂ : (v :: ts₂).getLast? = some u := by
    rw [split, ← List.cons_append, List.getLast?_append_of_ne_nil _ (List.cons_ne_nil _ _)] at last
    exact last
  have more : ts₂ ≠ [] := by
    rintro rfl
    cases last₂
    exact exits.away here
  exact ⟨ts₁, ts₂, away, here, others, trail, onwards, last₂, (onwards.passable more).nonzero here⟩

theorem Continued.info {n : Nat} (went : Continued n w w') (running : w'.info.state = .running) :
    w'.info = w.info := by
  rcases went with ⟨c, t, bp, -, -, -, landing⟩
  cases landing with
  | exited l => cases running
  | _ => rfl

/-- All the visits, and the end, from a state that matches the plain debugger's. -/
theorem Matches.exits (lawful : Lawful p code len) (h : Matches p code ins w ⟨t, bps, reported⟩)
    (nonzero : rip t.regs ≠ 0) (stopped : rip t.regs ∈ bps ↔ reported = some (rip t.regs))
    (trail : Trail p len bps t ts) (last : (t :: ts).getLast? = some u) (exits : ExitsAt p len bps u exit) :
    (∃ w', Run (Step host) (List.replicate ((Sdb.visits bps ts).length + 1) .cont) w w') ∧
      ∀ w', Run (Step host) (List.replicate ((Sdb.visits bps ts).length + 1) .cont) w w' →
        Exited w w' exit := by
  induction left : Sdb.visits bps ts generalizing w t ts reported with
  | nil =>
    have away := away_of_visits_nil left
    rcases h.ending host lawful nonzero stopped away trail last exits with ⟨⟨w', went⟩, all⟩
    refine ⟨⟨w', .single went⟩, fun w' run => ?_⟩
    cases run with
    | cons head rest =>
      cases rest
      exact all _ head
  | cons v vs ih =>
    rcases visits_onwards left trail last exits
      with ⟨ts₁, ts₂, away, here, others, trail, onwards, last₂, nonzero₂⟩
    rcases h.visit host lawful nonzero stopped away trail here with ⟨⟨w₁, went⟩, all⟩
    have next {w : World κ} (matched : Matches p code ins w ⟨v, bps, some (rip v.regs)⟩) :=
      ih matched nonzero₂ (iff_of_true here rfl) onwards last₂ others
    refine ⟨?_, fun w' run => ?_⟩
    · rcases (next (all w₁ went)).1 with ⟨w', run⟩
      exact ⟨w', .cons went run⟩
    · cases run with
      | @cons _ _ _ w₂ _ head rest =>
        have matched := all _ head
        rcases head with ⟨n, ok⟩
        have same : w₂.info = w.info := (cont_continued h.tidy h.running ok).info matched.running
        rcases (next matched).2 w' rest with ⟨child, info, report⟩
        rw [same] at report
        exact ⟨child, info, report⟩

end Ending

section Session

variable {code : Set Addr} {len : Addr → Nat} {host : Host κ} {w : World κ} {c : Child κ}
  {ts : List (Tracee κ)} {t u : Tracee κ} {exit : BitVec 8}

/-- A breakpoint at which the debuggee stands is the one that was reported last. -/
theorem Ready.reported_iff (ready : Ready code w c) (nonzero : rip c.tracee.regs ≠ 0)
    (stopped : rip c.tracee.regs ∈ w.info.addrs → w.bpRestore.addr = rip c.tracee.regs) :
    rip (w.plain c).tracee.regs ∈ w.info.addrs ↔
      (w.plain c).reported = some (rip (w.plain c).tracee.regs) := by
  constructor
  · intro armed
    have here := stopped armed
    have set : w.bpRestore ≠ .empty := fun unset => nonzero (by rw [← here, unset]; rfl)
    exact (if_neg set).trans (congrArg some here)
  · intro reported
    change (if w.bpRestore = .empty then none else some w.bpRestore.addr) = _ at reported
    split at reported
    · cases reported
    · next set =>
      rw [← Option.some.inj reported]
      exact mem_addrs (ready.restore.resolve_left set)

end Session

section Fill

open Sample

def Event.next? : Event κ → Option (Tracee κ)
  | .next t => some t
  | .stop _ _ | .exited _ | .signaled _ _ => none

end Fill

end UnixProgramming.Sdb
