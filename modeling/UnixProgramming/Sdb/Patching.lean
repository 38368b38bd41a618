import Mathlib.Data.List.Nodup
import UnixProgramming.Sdb.Sample

/-!
# The patching invariant of one debugging session

While a session lasts, the debuggee's code is the code of the program with the
breakpoint instruction at the listed addresses, and each listed breakpoint knows
the byte it replaced. The steps are `plant`, `unarm` and `rearm`; everything else
leaves the code alone.
-/

namespace UnixProgramming.Sdb

open Memory Transition

variable {κ : Type}

/-- The debuggee between two commands of a session. -/
structure Sane (p : Program κ) (code : Set Addr) (armed : List Addr) (t : Tracee κ) : Prop where
  patched : Patched code p.image.mem armed t.mem
  null : t.mem 0 = none

theorem Steady.step {p : Program κ} {code : Set Addr} (steady : Steady p code) {armed : List Addr}
    {t t' : Tracee κ} (h : Sane p code armed t) (left : (p.step t).tracee? = some t') :
    Sane p code armed t' :=
  ⟨h.patched.congr (steady.keep t armed t' h.patched left),
    steady.keep_null t armed t' h.patched h.null left⟩

theorem Steady.resume {p : Program κ} {code : Set Addr} (steady : Steady p code)
    {armed : List Addr} {n : Nat} {t t' : Tracee κ} {e : Event κ} (h : Sane p code armed t)
    (answer : p.resume n t = some e) (left : e.tracee? = some t') : Sane p code armed t' :=
  Program.resume_invariant (fun _ _ sane moved => steady.step sane moved) answer left h

theorem Sane.rewind {p : Program κ} {code : Set Addr} {armed : List Addr} {t : Tracee κ}
    (h : Sane p code armed t) : Sane p code armed (rewind t) := ⟨h.patched, h.null⟩

/-- The invariant while the debuggee `c` of program `p` lives. -/
structure Session (p : Program κ) (code : Set Addr) (w : World κ) (c : Child κ) : Prop where
  prog : c.prog = p
  distinct : w.info.addrs.Nodup
  saved : ∀ bp ∈ w.info.bpVec, bp.addr ∈ code → p.image.mem bp.addr = some bp.origPatch
  sane : Sane p code w.info.addrs c.tracee
  restore : w.bpRestore.addr ≠ 0 → w.bpRestore ∈ w.info.bpVec

section Steps

variable {p : Program κ} {code : Set Addr} {w w' : World κ} {c : Child κ}

theorem Session.mapped_ne_zero (h : Session p code w c) {addr : Addr}
    (readable : Readable c.tracee.mem addr) : addr ≠ 0 := by
  rintro rfl
  have mapped := readable.self
  rw [h.sane.null] at mapped
  cases mapped

theorem Session.plant (h : Session p code w c) {addr : Addr} {word : BitVec 64} {l : List Effect}
    (fresh : addr ∉ w.info.addrs) (read : peek c.tracee.mem addr = some word) :
    Session p code
      { w with
        info := { w.info with bpVec := w.info.bpVec ++ [⟨addr, byte word 0⟩] }
        child := some { c with tracee := plant addr c.tracee }
        log := l }
      { c with tracee := plant addr c.tracee } := by
  have addrs : ProgInfo.addrs { w.info with bpVec := w.info.bpVec ++ [⟨addr, byte word 0⟩] } =
      w.info.addrs ++ [addr] := by simp [ProgInfo.addrs]
  refine ⟨h.prog, ?_, ?_, ⟨?_, ?_⟩, fun armed => List.mem_append_left _ (h.restore armed)⟩
  · rw [addrs]
    exact List.nodup_append.mpr ⟨h.distinct, List.nodup_singleton _, by grind⟩
  · intro bp listed here
    rcases List.mem_append.mp listed with old | new
    · exact h.saved bp old here
    · obtain rfl := List.mem_singleton.mp new
      have intact := h.sane.patched addr here
      rw [if_neg fresh, low_of_peek read] at intact
      exact intact.symm
  · rw [addrs]
    exact h.sane.patched.arm
  · have nonzero := h.mapped_ne_zero (readable_of_peek read)
    exact (Function.update_of_ne nonzero.symm _ _).trans h.sane.null

theorem Session.unarm (h : Session p code w c) {i : Nat} {bp : Breakpoint} {l : List Effect}
    (found : w.info.bpVec[i]? = some bp) (readable : Readable c.tracee.mem bp.addr) :
    Session p code
      { w with
        info := { w.info with bpVec := w.info.bpVec.eraseIdx i }
        bpRestore := if w.bpRestore.addr = bp.addr then .empty else w.bpRestore
        child := some { c with tracee := unarm bp c.tracee }
        log := l }
      { c with tracee := unarm bp c.tracee } := by
  have listed : bp ∈ w.info.bpVec := List.mem_of_getElem? found
  have split := addrs_eraseIdx h.distinct found
  refine ⟨h.prog, ?_, ?_, ⟨?_, ?_⟩, ?_⟩
  · exact h.distinct.sublist ((List.eraseIdx_sublist _ _).map _)
  · exact fun bp' kept => h.saved bp' (List.mem_of_mem_eraseIdx kept)
  · exact h.sane.patched.disarm (h.saved bp listed) split
  · exact (Function.update_of_ne (h.mapped_ne_zero readable).symm _ _).trans h.sane.null
  · intro armed
    dsimp only at armed ⊢
    split at armed
    · exact absurd rfl armed
    · next other =>
      rw [if_neg other]
      exact mem_eraseIdx_of_ne found (h.restore armed) other

theorem Session.launch (steady : Steady p code) (h : Session p code w c) {t : Tracee κ}
    {bp : Breakpoint} (launch : Launch w c t bp) :
    Sane p code w.info.addrs t ∧ (bp.addr ≠ 0 → bp ∈ w.info.bpVec) := by
  cases launch with
  | away => exact ⟨h.sane, h.restore⟩
  | @stepped t here readable moved =>
    refine ⟨?_, fun armed => absurd rfl armed⟩
    have nonzero := h.mapped_ne_zero readable
    have listed := h.restore nonzero
    have out : Sane p code (w.info.addrs.filter (· ≠ w.bpRestore.addr))
        (UnixProgramming.Sdb.unarm w.bpRestore c.tracee) :=
      ⟨h.sane.patched.disarm (h.saved _ listed) (by simp),
        (Function.update_of_ne nonzero.symm _ _).trans h.sane.null⟩
    rw [h.prog] at moved
    refine ⟨h.sane.patched.rearm (mem_addrs listed) fun x hx other => ?_, ?_⟩
    · rw [steady.keep _ _ _ out.patched moved x hx]
      exact Function.update_of_ne other _ _
    · have after := (steady.step out moved).null
      refine (Function.update_of_ne nonzero.symm _ _).trans ?_
      by_cases near : 0 ∈ window w.bpRestore.addr 8
      · rw [Set.piecewise_eq_of_mem _ _ _ near]
        exact h.sane.null
      · rw [Set.piecewise_eq_of_notMem _ _ _ near]
        exact after

theorem Session.continued (steady : Steady p code) (h : Session p code w c) {t : Tracee κ}
    {bp : Breakpoint} {n : Nat} {c' : Child κ} (launch : Launch w c t bp)
    (landing : Landing n w c t bp w')
    (alive : w'.child = some c') : Session p code w' c' := by
  obtain ⟨sane, kept⟩ := h.launch steady launch
  have reached {n e t'} (answer : c.prog.resume n t = some e) (left : e.tracee? = some t') :
      Sane p code w.info.addrs t' := steady.resume sane (h.prog ▸ answer) left
  cases landing with
  | hit l answer left found =>
    obtain rfl := Option.some.inj alive
    exact ⟨h.prog, h.distinct, h.saved, (reached answer left).rewind, fun _ =>
      List.mem_of_find?_eq_some found⟩
  | stop l answer left =>
    obtain rfl := Option.some.inj alive
    exact ⟨h.prog, h.distinct, h.saved, reached answer left, kept⟩
  | exited => cases alive
  | signaled => cases alive

end Steps

section Runs

variable {p : Program κ} {code : Set Addr} {host : Host κ} {w w' : World κ}

/-- The invariant of the worlds of one session. -/
structure InSession (p : Program κ) (code : Set Addr) (w : World κ) : Prop where
  tidy : w.Tidy
  loaded : w.info.state ≠ .loaded
  session : ∀ c, w.child = some c → Session p code w c

theorem InSession.step (steady : Steady p code) {cmd : Command} (other : ∀ path, cmd ≠ .load path)
    (h : InSession p code w) (step : Step host cmd w w') : InSession p code w' := by
  have out := step.outcome h.tidy
  refine ⟨step.tidy h.tidy, fun loaded => ?_, fun c' alive => ?_⟩
  · rcases out.loads h.tidy loaded with same | ⟨path, load, -⟩
    · exact h.loaded (same ▸ loaded)
    · exact other path load
  · cases out with
    | quiet same =>
      rw [same] at alive ⊢
      have before := h.session c' alive
      exact ⟨before.prog, before.distinct, before.saved, before.sane, before.restore⟩
    | planted l stopped running fresh read =>
      obtain rfl := Option.some.inj alive
      exact (h.session _ stopped.child).plant fresh read
    | removed l stopped found readable =>
      obtain rfl := Option.some.inj alive
      exact (h.session _ stopped.child).unarm found readable
    | register l stopped =>
      obtain rfl := Option.some.inj alive
      have before := h.session _ stopped.child
      exact ⟨before.prog, before.distinct, before.saved, ⟨before.sane.patched, before.sane.null⟩,
        before.restore⟩
    | @stepped c l stopped =>
      obtain ⟨t, moved, rfl⟩ := Option.map_eq_some_iff.mp alive
      have before := h.session _ stopped.child
      exact ⟨before.prog, before.distinct, before.saved,
        steady.step before.sane (before.prog ▸ moved), before.restore⟩
    | continued went | resumed went =>
      obtain ⟨c, t, bp, stopped, -, launch, landing⟩ := went
      exact (h.session c stopped.child).continued steady launch landing alive
    | loaded => exact absurd rfl (other _)
    | started begun | ran _ begun =>
      obtain ⟨ins, l, loaded⟩ := begun
      exact absurd loaded h.loaded

theorem Started.inSession {c : Child κ} (tidy : w.Tidy) (begun : Started host w w')
    (clear : w'.bpRestore = .empty) (born : w'.child = some c) (steady : Steady c.prog code) :
    InSession c.prog code w' := by
  have after := begun.tidy
  obtain ⟨ins, l, loaded⟩ := begun
  obtain rfl := Option.some.inj born
  have unset : w.info.bpVec = [] := tidy.idle (by rw [loaded]; exact RunState.noConfusion)
  refine ⟨after, RunState.noConfusion, fun c' alive => ?_⟩
  obtain rfl := Option.some.inj alive
  refine ⟨rfl, ?_, ?_, ⟨?_, steady.null⟩, fun armed => ?_⟩
  · simp [ProgInfo.addrs, unset]
  · simp [unset]
  · intro x hx
    simp [ProgInfo.addrs, unset]
  · exact absurd (congrArg Breakpoint.addr clear) armed

/-- A breakpoint joins the list only through `break`, with the byte memory then holds. -/
theorem Outcome.bpVec {cmd : Command} (out : Outcome host w cmd w') :
    ∀ bp ∈ w'.info.bpVec, bp ∈ w.info.bpVec ∨ cmd = .break bp.addr ∧
      ∃ c, w.child = some c ∧ c.tracee.mem bp.addr = some bp.origPatch := by
  intro bp listed
  have landed {w₁ w₂ : World κ} {n c t kept} (landing : Landing n w₁ c t kept w₂)
      (listed : bp ∈ w₂.info.bpVec) : bp ∈ w₁.info.bpVec := by
    cases landing with
    | hit | stop | signaled => exact listed
    | exited => cases listed
  cases out with
  | quiet same =>
    rw [same] at listed
    exact .inl listed
  | planted l stopped running fresh read =>
    obtain old | new := List.mem_append.mp listed
    · exact .inl old
    · obtain rfl := List.mem_singleton.mp new
      exact .inr ⟨rfl, _, stopped.child, low_of_peek read⟩
  | removed => exact .inl (List.mem_of_mem_eraseIdx listed)
  | register | stepped => exact .inl listed
  | continued went | resumed went =>
    obtain ⟨c, t, kept, -, -, -, landing⟩ := went
    exact .inl (landed landing listed)
  | loaded l idle loaded unset =>
    rw [unset] at listed
    cases listed
  | started begun =>
    obtain ⟨ins, l⟩ := begun
    exact .inl listed
  | ran _ begun went =>
    obtain ⟨c, t, kept, -, -, -, landing⟩ := went
    have before := landed landing listed
    obtain ⟨ins, l⟩ := begun
    exact .inl before

/-- The `break` of the run that a listed breakpoint comes from. -/
def SetBy (host : Host κ) (w : World κ) (cs : List Command) (bp : Breakpoint) : Prop :=
  ∃ before after w₁ c₁, cs = before ++ .break bp.addr :: after ∧ Run (Step host) before w w₁ ∧
    w₁.child = some c₁ ∧ c₁.tracee.mem bp.addr = some bp.origPatch

theorem setBy_of_run {cs : List Command} (tidy : w.Tidy) (unset : w.info.bpVec = [])
    (run : Run (Step host) cs w w') : ∀ bp ∈ w'.info.bpVec, SetBy host w cs bp := by
  refine And.right (run.past (P := fun cs v => v.Tidy ∧ ∀ bp ∈ v.info.bpVec, SetBy host w cs bp)
    ⟨tidy, by simp [unset]⟩ ?_)
  intro cs cmd v v' before ⟨tidy, past⟩ step
  refine ⟨step.tidy tidy, fun bp listed => ?_⟩
  obtain old | ⟨rfl, c, alive, held⟩ := (step.outcome tidy).bpVec bp listed
  · obtain ⟨cs₁, cs₂, v₁, c₁, rfl, rest⟩ := past bp old
    exact ⟨cs₁, cs₂ ++ [cmd], v₁, c₁, by simp, rest⟩
  · exact ⟨cs, [], v, c, rfl, before, alive, held⟩

theorem session_of_run {w₀ : World κ} {cs : List Command} {c₀ c : Child κ}
    (reach : Reachable host w) (loaded : w.info.state = .loaded) (start : Step host .start w w₀)
    (clear : w₀.bpRestore = .empty) (born : w₀.child = some c₀) (steady : Steady c₀.prog code)
    (run : Run (Step host) cs w₀ w') (noLoad : ∀ cmd ∈ cs, ∀ path, cmd ≠ .load path)
    (alive : w'.child = some c) :
    Session c₀.prog code w' c ∧ ∀ bp ∈ w'.info.bpVec, SetBy host w₀ cs bp := by
  obtain ⟨n, ok⟩ := start
  obtain ⟨idle, -⟩ | begun := start_ok ok
  · exact absurd loaded idle
  have first := begun.inSession reach.tidy clear born steady
  have last := run.invariant_on (I := InSession c₀.prog code)
    (fun cmd listed _ _ inside step => inside.step steady (noLoad cmd listed) step) first
  have unset : w₀.info.bpVec = [] := by
    have before := reach.tidy.idle (by rw [loaded]; exact RunState.noConfusion)
    obtain ⟨ins, l⟩ := begun
    exact before
  exact ⟨last.session c alive, setBy_of_run first.tidy unset run⟩

/-- After every command of a session the listed addresses are distinct, each
breakpoint holds the byte that its `break` found, which in the code is the
program's own, the code is the program's with `int3` at the listed addresses,
and `bp_restore`, if set, is listed. -/
theorem patching_invariant {w₀ : World κ} {cs : List Command} {c₀ c : Child κ}
    (reach : Reachable host w) (loaded : w.info.state = .loaded) (start : Step host .start w w₀)
    (clear : w₀.bpRestore = .empty) (born : w₀.child = some c₀) (steady : Steady c₀.prog code)
    (run : Run (Step host) cs w₀ w') (noLoad : ∀ cmd ∈ cs, ∀ path, cmd ≠ .load path)
    (alive : w'.child = some c) :
    w'.info.addrs.Nodup ∧
    (∀ bp ∈ w'.info.bpVec, SetBy host w₀ cs bp ∧
      (bp.addr ∈ code → c₀.prog.image.mem bp.addr = some bp.origPatch)) ∧
    (∀ x ∈ code, c.tracee.mem x =
      if x ∈ w'.info.addrs then some int3 else c₀.prog.image.mem x) ∧
    (w'.bpRestore.addr ≠ 0 → w'.bpRestore ∈ w'.info.bpVec) := by
  obtain ⟨now, setBy⟩ := session_of_run reach loaded start clear born steady run noLoad alive
  exact ⟨now.distinct, fun bp listed => ⟨setBy bp listed, now.saved bp listed⟩, now.sane.patched,
    now.restore⟩

end Runs

section Loop

open Sample

/-- What holds after a session on a sample while its debuggee lives. -/
theorem session_of_sample {text : List Byte} {path : String} {cs : List Command} {n : Nat}
    {w : World Unit} (ended : session (host text) n (.load path :: .start :: cs) = some w)
    (noLoad : ∀ cmd ∈ cs, ∀ path, cmd ≠ .load path) {c : Child Unit} (alive : w.child = some c) :
    Reachable (host text) w ∧ w.Stopped c ∧ w.info.state = .running ∧
      Session (sample text) (code data) w c := by
  have reached : Reachable (host text) w := ⟨_, run_of_session ended⟩
  obtain ⟨v, w₀, c₀, reach, loaded, start, clear, born, own, -, run⟩ :=
    run_start (run_of_session ended)
  have steady : Steady c₀.prog (code data) := own ▸ sample_steady text
  obtain ⟨now, -⟩ := session_of_run reach loaded start clear born steady run noLoad alive
  obtain ⟨stopped, running⟩ := reached.tidy.child c alive
  exact ⟨reached, stopped, running, own ▸ now⟩

/-- `mov edi, 0x402000; mov eax, 0x41; stosb; jmp` back to the `stosb`, which is
three bytes in front of the data. -/
def fill : List Byte :=
  [0xbf, 0x00, 0x20, 0x40, 0x00, 0xb8, 0x41, 0x00, 0x00, 0x00, 0xaa, 0xeb, 0xfd]

theorem patching_invariant_fill : ∃ w₀ w' c,
    Run (Step (host fill))
      [.break 0x401ffd, .break 0x401ff8, .break 0x401ffe, .cont, .cont, .si, .cont, .delete 1,
        .delete (-1), .set "rip" 0x401ff3, .cont] w₀ w' ∧
    w'.child = some c ∧ w'.info.addrs = [0x401ffd, 0x401ffe] ∧ w'.info.addrs.Nodup ∧
    ∀ x ∈ code data, c.tracee.mem x =
      if x ∈ w'.info.addrs then some int3 else (image fill).mem x := by
  have summary : (session (host fill) 40
      [.load "fill", .start, .break 0x401ffd, .break 0x401ff8, .break 0x401ffe, .cont, .cont, .si,
        .cont, .delete 1, .delete (-1), .set "rip" 0x401ff3, .cont]).map
      (fun w => (w.info.addrs, w.child.isSome)) = some ([0x401ffd, 0x401ffe], true) := by
    decide +kernel
  obtain ⟨w', ended, facts⟩ := Option.map_eq_some_iff.mp summary
  obtain ⟨addrs, lives⟩ := Prod.mk.inj facts
  obtain ⟨c, alive⟩ := Option.isSome_iff_exists.mp lives
  obtain ⟨w, w₀, c₀, reach, loaded, start, clear, born, own, -, run⟩ := run_start (run_of_session ended)
  have steady : Steady c₀.prog (code data) := own ▸ sample_steady fill
  obtain ⟨distinct, -, patched, -⟩ := patching_invariant reach loaded start clear born steady run
    (by simp) alive
  rw [own] at patched
  exact ⟨w₀, w', c, run, alive, addrs, distinct, patched⟩

end Loop

end UnixProgramming.Sdb
