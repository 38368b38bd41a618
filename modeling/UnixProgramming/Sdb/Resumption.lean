import UnixProgramming.Sdb.Hit
import UnixProgramming.Sdb.Simulation

/-!
# Resuming from a breakpoint

`cont` rewinds only a breakpoint with a recorded instruction, and `break` accepts any
address that can be read and written. A breakpoint can be resumed from as long as every
`break` gives an address where `start` has recorded an instruction.
-/

namespace UnixProgramming.Sdb

open Memory Transition

variable {κ : Type}

section Resuming

variable {host : Host κ} {w w' : World κ} {c : Child κ} {t t₀ : Tracee κ} {bp kept : Breakpoint}

/-- `cont` steps over `bp`: it executes the instruction there with the original byte back
in place, arms the breakpoint again, and goes on. -/
def StepsOver (w : World κ) (c : Child κ) (bp : Breakpoint) : Prop :=
  ∀ t kept, Launch w c t kept ↔ kept = .empty ∧ Readable c.tracee.mem bp.addr ∧
    ∃ t₁, (c.prog.step (unarm bp c.tracee)).tracee? = some t₁ ∧ Readable t₁.mem bp.addr ∧
      t = rearm bp c.tracee t₁

/-- Whenever `cont` runs the debuggee into the `int3` of `bp`, it rewinds the debuggee to
`bp`, records `bp` in `bp_restore`, and the next `cont` steps over it. -/
def ResumesFrom (host : Host κ) (w : World κ) (bp : Breakpoint) : Prop :=
  ∀ c t kept t₀, w.Stopped c → c.prog.Traps → Launch w c t kept → c.prog.Reaches t t₀ →
    rip t₀.regs = bp.addr → t₀.mem bp.addr = some int3 →
    (∃ w', Step host .cont w w') ∧ ∀ w', Step host .cont w w' → w'.bpRestore = bp ∧
      ∃ c', w'.Stopped c' ∧ c'.prog = c.prog ∧ c'.tracee = t₀ ∧ StepsOver w' c' bp

theorem stepsOver_of_restore (here : rip c.tracee.regs = bp.addr) (restore : w.bpRestore = bp) :
    StepsOver w c bp := by
  subst restore
  intro t kept
  constructor
  · intro launch
    cases launch with
    | away far => exact absurd here far
    | @stepped t₁ _ readable moved still => exact ⟨rfl, readable, t₁, moved, still, rfl⟩
  · rintro ⟨rfl, readable, t₁, moved, still, rfl⟩
    exact .stepped here readable moved still

/-- Of two listed breakpoints with one address there is only one. -/
theorem eq_of_addr {info : ProgInfo} {bp' : Breakpoint} (distinct : info.addrs.Nodup)
    (listed : bp ∈ info.bpVec) (listed' : bp' ∈ info.bpVec) (same : bp.addr = bp'.addr) :
    bp = bp' := List.inj_on_of_nodup_map distinct listed listed' same

theorem hit?_eq_of_listed {ins : List Instruction1} {info : ProgInfo} {regs : UserRegs}
    (distinct : info.addrs.Nodup) (listed : bp ∈ info.bpVec) (recorded : Recorded ins bp.addr)
    (here : bp.addr = rip regs - 1) : hit? ins regs info.bpVec = some bp := by
  cases settled : hit? ins regs info.bpVec with
  | none =>
    have missed := List.find?_eq_none.mp settled bp listed
    rw [decide_eq_true_eq] at missed
    exact absurd ⟨here, recorded⟩ missed
  | some it =>
    have found : it.addr = rip regs - 1 ∧ Recorded ins it.addr := by
      simpa using List.find?_some settled
    have member := List.mem_of_find?_eq_some settled
    rw [eq_of_addr distinct listed member (here.trans found.1.symm)]

theorem resumesFrom_of_recorded (tidy : w.Tidy) (distinct : w.info.addrs.Nodup)
    (listed : bp ∈ w.info.bpVec) (recorded : Recorded w.origInstructions bp.addr) :
    ResumesFrom host w bp := by
  intro c t kept t₀ stopped traps launch ran here planted
  have running : w.info.state = .running := (tidy.child c stopped.child).2
  have stops := traps t₀ (here ▸ planted)
  obtain ⟨n, answer⟩ := ran.resume stops
  have settled : hit? w.origInstructions (trapped t₀).regs w.info.bpVec = some bp := by
    refine hit?_eq_of_listed distinct listed recorded ?_
    simp [trapped, here]
  constructor
  · have returns : ∃ w', exec host n .cont w = .ok () w' :=
      cont_returns stopped running launch answer
    exact returns.imp fun _ ok => ⟨n, ok⟩
  rintro w' ⟨k, ok⟩
  obtain ⟨t₁, kept₁, launch₁, landing⟩ := cont_ok stopped running ok
  obtain ⟨rfl, rfl⟩ := launch.unique launch₁
  cases landing with
  | hit l answer' left found =>
    obtain rfl := Program.resume_unique answer' answer
    obtain rfl := Option.some.inj left
    obtain rfl := Option.some.inj (found.symm.trans settled)
    refine ⟨rfl, _, ⟨rfl, stopped.pid, stopped.resumed⟩, rfl, rewind_trapped t₀, ?_⟩
    refine stepsOver_of_restore ?_ rfl
    rw [rewind_trapped]
    exact here
  | stop l answer' left found =>
    obtain rfl := Program.resume_unique answer' answer
    obtain rfl := Option.some.inj left
    rw [settled] at found
    cases found
  | exited l answer' => cases Program.resume_unique answer' answer
  | signaled l answer' => cases Program.resume_unique answer' answer

end Resuming

section Accepting

variable {host : Host κ} {w w' : World κ} {cmd : Command}

/-- If the command is a `break` that can plant a breakpoint, it gives the address of a
recorded instruction. -/
def OnRecorded (w : World κ) (cmd : Command) : Prop :=
  ∀ addr, cmd = .break addr → w.info.state = .running → Recorded w.origInstructions addr

/-- Every listed breakpoint has a recorded instruction. -/
def AllRecorded (w : World κ) : Prop := ∀ a ∈ w.info.addrs, Recorded w.origInstructions a

/-- What a command can do to the listed addresses: a `break` adds one, and all others
only take some away, or start over with none. -/
inductive Listing (w : World κ) (cmd : Command) (w' : World κ) : Prop where
  | fewer : w'.info.addrs.Sublist w.info.addrs → w'.origInstructions = w.origInstructions →
      Listing w cmd w'
  | none : w'.info.addrs = [] → Listing w cmd w'
  | added {addr} : cmd = .break addr → w.info.state = .running → addr ∉ w.info.addrs →
      w'.info.addrs = w.info.addrs ++ [addr] → w'.origInstructions = w.origInstructions →
      Listing w cmd w'

theorem Continued.listing {n : Nat} (went : Continued n w w') : Listing w cmd w' := by
  obtain ⟨c, t, kept, -, -, -, landing⟩ := went
  cases landing with
  | hit | stop | signaled => exact .fewer (List.Sublist.refl _) rfl
  | exited => exact .none rfl

/-- `start` finds no listed breakpoint and lists none. -/
theorem Started.unlisted (tidy : w.Tidy) (begun : Started host w w') : w'.info.addrs = [] := by
  obtain ⟨ins, l, loaded⟩ := begun
  have unset := tidy.idle (by rw [loaded]; exact RunState.noConfusion)
  simp [ProgInfo.addrs, unset]

theorem Outcome.listing (tidy : w.Tidy) (out : Outcome host w cmd w') : Listing w cmd w' := by
  cases out with
  | quiet same =>
    rw [same]
    exact .fewer (List.Sublist.refl _) rfl
  | planted l stopped running fresh =>
    exact .added rfl running fresh (by simp [ProgInfo.addrs]) rfl
  | removed => exact .fewer ((List.eraseIdx_sublist _ _).map _) rfl
  | register | stepped => exact .fewer (List.Sublist.refl _) rfl
  | continued went | resumed went => exact went.listing
  | loaded l idle loaded unset => exact .none (by simp [ProgInfo.addrs, unset])
  | started begun => exact .none (begun.unlisted tidy)
  | ran _ begun went =>
    have later : Listing _ .run w' := went.listing
    cases later with
    | fewer sub =>
      rw [begun.unlisted tidy] at sub
      exact .none (List.sublist_nil.mp sub)
    | none empty => exact .none empty
    | added given => cases given

theorem Listing.distinct (h : w.info.addrs.Nodup) (listing : Listing w cmd w') :
    w'.info.addrs.Nodup := by
  cases listing with
  | fewer sub => exact h.sublist sub
  | none empty =>
    rw [empty]
    exact List.nodup_nil
  | added _ _ fresh more =>
    rw [more]
    exact List.nodup_append.mpr ⟨h, List.nodup_singleton _, by grind⟩

theorem Listing.allRecorded (h : AllRecorded w) (on : OnRecorded w cmd)
    (listing : Listing w cmd w') : AllRecorded w' := by
  intro a listed
  cases listing with
  | fewer sub same =>
    rw [same]
    exact h a (sub.subset listed)
  | none empty =>
    rw [empty] at listed
    cases listed
  | added given running _ more same =>
    rw [same]
    rw [more] at listed
    obtain old | new := List.mem_append.mp listed
    · exact h a old
    · obtain rfl := List.mem_singleton.mp new
      exact on a given running

/-- A `break` that comes back has its address listed. -/
theorem setBp_lists (tidy : w.Tidy) {addr : Addr} (running : w.info.state = .running)
    (ok : setBp addr w = .ok () w') :
    addr ∈ w'.info.addrs ∧ w'.origInstructions = w.origInstructions := by
  obtain ⟨listed, same⟩ | ⟨c, code, l, -, -, -, rfl⟩ := setBp_ok tidy running ok
  · rw [same]
    exact ⟨listed, rfl⟩
  · exact ⟨by simp [ProgInfo.addrs], rfl⟩

theorem Step.allRecorded_iff (tidy : w.Tidy) (h : AllRecorded w) (step : Step host cmd w w') :
    AllRecorded w' ↔ OnRecorded w cmd := by
  constructor
  · rintro after addr rfl running
    obtain ⟨n, ok⟩ := step
    obtain ⟨listed, same⟩ := setBp_lists tidy running ok
    rw [← same]
    exact after addr listed
  · exact fun on => ((step.outcome tidy).listing tidy).allRecorded h on

/-- In every run in which each `break` gives the address of a recorded instruction, every
listed breakpoint has a recorded instruction and can be resumed from. The next command
keeps this exactly if it is no `break` elsewhere. -/
theorem resumable {cs : List Command}
    (run : Run (fun cmd w w' => Step host cmd w w' ∧ OnRecorded w cmd) cs (World.init host) w) :
    (∀ bp ∈ w.info.bpVec, Recorded w.origInstructions bp.addr ∧ ResumesFrom host w bp) ∧
    ∀ cmd w', Step host cmd w w' → (AllRecorded w' ↔ OnRecorded w cmd) := by
  obtain ⟨tidy, distinct, recorded⟩ := run.invariant
    (I := fun w => w.Tidy ∧ w.info.addrs.Nodup ∧ AllRecorded w)
    (fun cmd w w' ⟨tidy, distinct, recorded⟩ ⟨step, on⟩ =>
      have listing := (step.outcome tidy).listing tidy
      ⟨step.tidy tidy, listing.distinct distinct, listing.allRecorded recorded on⟩)
    ⟨World.init_tidy host, List.nodup_nil, fun a listed => by cases listed⟩
  refine ⟨fun bp listed => ?_, fun cmd w' step => step.allRecorded_iff tidy recorded⟩
  have own := recorded bp.addr (mem_addrs listed)
  exact ⟨own, resumesFrom_of_recorded tidy distinct listed own⟩

end Accepting

section Samples

open Sample

theorem resumable_fault : ∃ w bp, Reachable (host fault) w ∧ bp ∈ w.info.bpVec ∧
    bp.addr = 0x401ffe ∧ Recorded w.origInstructions bp.addr ∧ ResumesFrom (host fault) w bp := by
  have summary : ((session (host fault) 40 [.load "fault", .start]).bind fun w =>
      match exec (host fault) 40 (.break 0x401ffe) w with
      | .ok _ w' => some (decide (Recorded w.origInstructions 0x401ffe), w'.info.bpVec)
      | .error _ _ => none) = some (true, [⟨0x401ffe, 0x90⟩]) := by
    decide +kernel
  obtain ⟨w, ended, rest⟩ := Option.bind_eq_some_iff.mp summary
  cases ok : exec (host fault) 40 (.break 0x401ffe) w with
  | error e v =>
    rw [ok] at rest
    cases rest
  | ok u w' =>
    rw [ok] at rest
    simp only [Option.some.injEq, Prod.mk.injEq, decide_eq_true_eq] at rest
    obtain ⟨recorded, listed⟩ := rest
    have first : Run (fun cmd w w' => Step (host fault) cmd w w' ∧ OnRecorded w cmd)
        [.load "fault", .start] (World.init (host fault)) w := by
      refine (run_of_session ended).mono fun cmd member v v' step => ⟨step, fun addr given _ => ?_⟩
      subst given
      simp at member
    have step : Step (host fault) (.break 0x401ffe) w w' := ⟨40, ok⟩
    have run := first.snoc ⟨step, fun addr given _ => by
      cases given
      exact recorded⟩
    obtain ⟨all, -⟩ := resumable run
    have member : ⟨0x401ffe, 0x90⟩ ∈ w'.info.bpVec := by
      rw [listed]
      exact List.mem_singleton_self _
    exact ⟨w', _, ⟨_, (run_of_session ended).snoc step⟩, member, rfl, all _ member⟩

/-- A jump over the first byte of a `mov`, into the `nop`s behind it. -/
def overlap : List Byte := [0xeb, 0x01, 0xb8, 0x90, 0x90, 0x90, 0x90]

/-- A breakpoint inside the `mov` is accepted, but `cont` does not come back to it. -/
theorem break_not_resumable : ∃ w bp, Reachable (host overlap) w ∧ bp ∈ w.info.bpVec ∧
    ¬ Recorded w.origInstructions bp.addr ∧ ¬ ResumesFrom (host overlap) w bp := by
  have summary : ((session (host overlap) 40 [.load "overlap", .start, .break 0x401ffc]).bind fun w =>
      w.child.bind fun c =>
        match c.prog.step c.tracee with
        | .next t =>
          match exec (host overlap) 40 .cont w with
          | .ok _ w' => some (decide (⟨0x401ffc, 0x90⟩ ∈ w.info.bpVec),
              decide (Recorded w.origInstructions 0x401ffc),
              decide (rip c.tracee.regs = w.bpRestore.addr), rip t.regs,
              decide (t.mem 0x401ffc = some int3), w'.bpRestore)
          | .error _ _ => none
        | .stop _ _ | .exited _ | .signaled _ _ => none) = some (true, false, false, 0x401ffc, true, .empty) := by
    decide +kernel
  obtain ⟨w, ended, rest⟩ := Option.bind_eq_some_iff.mp summary
  obtain ⟨c, alive, rest⟩ := Option.bind_eq_some_iff.mp rest
  obtain ⟨reached, stopped, running, traps⟩ := stopped_of_session ended (by simp) alive
  cases moved : c.prog.step c.tracee with
  | stop sig t | exited code | signaled sig core => simp [moved] at rest
  | next t =>
    cases ok : exec (host overlap) 40 .cont w with
    | error e v => simp [moved, ok] at rest
    | ok u w' =>
      simp only [moved, ok, Option.some.injEq, Prod.mk.injEq, decide_eq_true_eq,
        decide_eq_false_iff_not] at rest
      obtain ⟨listed, unrecorded, far, here, planted, restore⟩ := rest
      refine ⟨w, ⟨0x401ffc, 0x90⟩, reached, listed, unrecorded, fun resumes => ?_⟩
      obtain ⟨-, lands⟩ := resumes c c.tracee w.bpRestore t stopped traps (.away far)
        (.next moved .here) here planted
      obtain ⟨rewound, -⟩ := lands w' ⟨40, ok⟩
      rw [restore] at rewound
      exact absurd rewound (by decide)

end Samples

end UnixProgramming.Sdb
