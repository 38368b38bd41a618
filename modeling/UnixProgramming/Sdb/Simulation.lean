import UnixProgramming.Sdb.Patching

/-!
# `cont` against the plain program

The plain debugger runs the unpatched program: it knows the breakpoint addresses
and which of them was reported last, and `cont` steps the program itself until it
reaches one. `sdb` simulates it as long as an instruction that is stepped over
leaves the seven bytes behind its first byte alone: `cont` writes these back as
they were before the step.
-/

namespace UnixProgramming.Sdb

open Memory Transition

variable {κ : Type}

section Arming

/-- The debuggee with the breakpoint instruction at the armed addresses. -/
def Tracee.arm (armed : List Addr) (t : Tracee κ) : Tracee κ :=
  { t with mem := fun x => if x ∈ armed then some int3 else t.mem x }

@[simp] theorem Tracee.arm_regs (armed : List Addr) (t : Tracee κ) : (t.arm armed).regs = t.regs :=
  rfl

theorem Tracee.arm_mem (armed : List Addr) (t : Tracee κ) (x : Addr) :
    (t.arm armed).mem x = if x ∈ armed then some int3 else t.mem x := rfl

theorem Tracee.ext_mem {t t' : Tracee κ} (regs : t.regs = t'.regs) (hidden : t.hidden = t'.hidden)
    (mem : ∀ x, t.mem x = t'.mem x) : t = t' := by
  obtain ⟨r, m, h⟩ := t
  obtain ⟨r', m', h'⟩ := t'
  obtain rfl : m = m' := funext mem
  dsimp only at regs hidden
  subst regs hidden
  rfl

/-- The code is the program's own. -/
def Original (p : Program κ) (code : Set Addr) (t : Tracee κ) : Prop :=
  ∀ x ∈ code, t.mem x = p.image.mem x

/-- No byte of the instruction at `rip`, except perhaps the first, is a breakpoint. -/
def Intact (len : Addr → Nat) (bps : List Addr) (t : Tracee κ) : Prop :=
  ∀ x ∈ bps, x ∈ window (rip t.regs) (len (rip t.regs)) → x = rip t.regs

-- Named: the instance for all of `BitVec 64` would be found first.
instance (len : Addr → Nat) (bps : List Addr) (t : Tracee κ) : Decidable (Intact len bps t) :=
  List.decidableBAll _ bps

variable {p : Program κ} {code : Set Addr} {len : Addr → Nat} {bps armed : List Addr}
  {t t' : Tracee κ}

theorem Tracee.arm_eq_recode (inside : ∀ a ∈ armed, a ∈ code) :
    t.arm armed = t.recode code (t.arm armed).mem := by
  refine Tracee.ext_mem rfl rfl fun x => ?_
  by_cases hx : x ∈ code
  · rw [recode_mem_of_mem hx]
  · rw [recode_mem_of_notMem hx, arm_mem, if_neg fun listed => hx (inside x listed)]

theorem Lawful.original (lawful : Lawful p code len) (own : Original p code t)
    (moved : p.step t = .next t') : Original p code t' := by
  have self : t.recode code t.mem = t := by
    refine Tracee.ext_mem rfl rfl fun x => ?_
    by_cases hx : x ∈ code
    · rw [Tracee.recode_mem_of_mem hx]
    · rw [Tracee.recode_mem_of_notMem hx]
  have same := lawful.own t t.mem own fun _ _ _ => rfl
  rw [self, moved] at same
  intro x hx
  rw [Event.next.inj same, Tracee.recode_mem_of_mem hx, own x hx]

/-- Away from the breakpoints the patched program does what the plain one does. -/
theorem Lawful.step_arm (lawful : Lawful p code len) (own : Original p code t)
    (inside : ∀ a ∈ armed, a ∈ code) (clear : rip t.regs ∉ armed) (intact : Intact len armed t)
    (moved : p.step t = .next t') : p.step (t.arm armed) = .next (t'.arm armed) := by
  have fetched : ∀ x ∈ window (rip t.regs) (len (rip t.regs)), x ∈ code →
      (t.arm armed).mem x = t.mem x := by
    intro x near _
    rw [Tracee.arm_mem, if_neg fun listed => clear (intact x listed near ▸ listed)]
  have same := lawful.own t (t.arm armed).mem own fetched
  rw [← Tracee.arm_eq_recode inside, moved] at same
  rw [same]
  refine congrArg Event.next (Tracee.ext_mem rfl rfl fun x => ?_)
  by_cases hx : x ∈ code
  · rw [Tracee.recode_mem_of_mem hx, Tracee.arm_mem, Tracee.arm_mem,
      lawful.original own moved x hx, own x hx]
  · rw [Tracee.recode_mem_of_notMem hx, Tracee.arm_mem, if_neg fun listed => hx (inside x listed)]

end Arming

section Plain

/-- Run the program itself to the next breakpoint, over instructions that no
breakpoint cuts into. -/
def Program.runTo (p : Program κ) (len : Addr → Nat) (bps : List Addr) :
    Nat → Tracee κ → Option (Tracee κ)
  | 0, _ => none
  | n + 1, t =>
    if rip t.regs ∈ bps then
      some t
    else if Intact len bps t then
      match p.step t with
      | .next t' => p.runTo len bps n t'
      | _ => none
    else
      none

/-- A debugger that needs no patches. -/
structure Plain (κ : Type) where
  tracee : Tracee κ
  bps : List Addr
  reported : Option Addr

/-- The first step of `cont`: it leaves a breakpoint that was reported last. -/
def Plain.leave (p : Program κ) (len : Addr → Nat) (s : Plain κ) : Option (Tracee κ) :=
  if s.reported = some (rip s.tracee.regs) then
    if Intact len s.bps s.tracee ∧ Readable s.tracee.mem (rip s.tracee.regs) then
      match p.step s.tracee with
      | .next t => some t
      | _ => none
    else
      none
  else
    some s.tracee

/-- The commands with which a session is steered; nothing where the program does
not reach a breakpoint, or the debugger cannot write one. -/
def Plain.exec (p : Program κ) (len : Addr → Nat) (ins : List Instruction1) (n : Nat) :
    Command → Plain κ → Option (Plain κ)
  | .cont, s =>
    if rip s.tracee.regs = 0 then none
    else ((s.leave p len).bind (p.runTo len s.bps n)).map fun t =>
      { s with tracee := t, reported := some (rip t.regs) }
  | .break addr, s =>
    if addr ∈ s.bps then some s
    else if Recorded ins addr ∧ Readable s.tracee.mem addr then
      some { s with bps := s.bps ++ [addr] }
    else none
  | .delete idx, s =>
    match s.bps[bpIndex idx]? with
    | none => some s
    | some addr =>
      if Readable s.tracee.mem addr then
        some { s with
          bps := s.bps.eraseIdx (bpIndex idx)
          reported := if s.reported = some addr then none else s.reported }
      else none
  | .set reg val, s =>
    match regsOffset.lookup reg with
    | none => some s
    | some offset =>
      some { s with
        tracee := { s.tracee with regs := Function.update s.tracee.regs offset val } }
  | _, _ => none

/-- The seven bytes behind `addr` are as they were in `t`. -/
def Event.KeepsTail (addr : Addr) (t : Tracee κ) : Event κ → Prop
  | .next t' => ∀ i < 8, i ≠ 0 → t'.mem (addr + BitVec.ofNat 64 i) = t.mem (addr + BitVec.ofNat 64 i)
  | _ => True

instance (addr : Addr) (t : Tracee κ) (e : Event κ) : Decidable (e.KeepsTail addr t) :=
  match e with
  | .next _ => inferInstanceAs (Decidable (∀ i < 8, _ → _))
  | .stop _ _ => .isTrue trivial
  | .exited _ => .isTrue trivial
  | .signaled _ _ => .isTrue trivial

/-- The instruction that `cont` would step over leaves the seven bytes behind its
first byte as they are. -/
def Plain.Gentle (p : Program κ) (s : Plain κ) : Prop :=
  s.reported = some (rip s.tracee.regs) → (p.step s.tracee).KeepsTail (rip s.tracee.regs) s.tracee

instance (p : Program κ) (s : Plain κ) : Decidable (s.Gentle p) :=
  inferInstanceAs (Decidable (_ → _))

def Plain.Step (p : Program κ) (len : Addr → Nat) (ins : List Instruction1) (cmd : Command)
    (s s' : Plain κ) : Prop := ∃ n, Plain.exec p len ins n cmd s = some s'

end Plain

section Matching

/-- `w` is the plain state `s` with the breakpoints planted. -/
structure Matches (p : Program κ) (code : Set Addr) (ins : List Instruction1) (w : World κ)
    (s : Plain κ) : Prop where
  child : ∃ c, w.Stopped c ∧ c.prog = p ∧ c.tracee = s.tracee.arm s.bps
  running : w.info.state = .running
  addrs : w.info.addrs = s.bps
  distinct : s.bps.Nodup
  saved : ∀ bp ∈ w.info.bpVec, s.tracee.mem bp.addr = some bp.origPatch
  instructions : w.origInstructions = ins
  recorded : ∀ a ∈ s.bps, Recorded ins a
  sites : ∀ i ∈ ins, i.addr ∈ code
  original : Original p code s.tracee
  restore : w.bpRestore = .empty ∧ s.reported = none ∨
    w.bpRestore ∈ w.info.bpVec ∧ s.reported = some w.bpRestore.addr

variable {p : Program κ} {code : Set Addr} {len : Addr → Nat} {host : Host κ} {w w' : World κ}
  {s s' : Plain κ} {ins : List Instruction1} {t t' : Tracee κ}

theorem Matches.inside (h : Matches p code ins w s) : ∀ a ∈ s.bps, a ∈ code := by
  intro a listed
  obtain ⟨i, found, rfl⟩ := h.recorded a listed
  exact h.sites i found

theorem Matches.tidy (h : Matches p code ins w s) : w.Tidy :=
  h.child.elim fun _ ⟨stopped, _⟩ => .of_stopped stopped h.running

theorem readable_arm {armed : List Addr} {addr : Addr} (h : Readable t.mem addr) :
    Readable (t.arm armed).mem addr := by
  intro i hi
  rw [Tracee.arm_mem]
  split
  · rfl
  · exact h i hi

/-- What reaches a breakpoint plainly, runs into its `int3` when patched. -/
theorem Lawful.resume_arm (lawful : Lawful p code len) {bps : List Addr}
    (inside : ∀ a ∈ bps, a ∈ code) {n : Nat} (own : Original p code t)
    (reached : p.runTo len bps n t = some t') :
    p.resume n (t.arm bps) = some (.stop sigtrap (trapped (t'.arm bps))) ∧
      rip t'.regs ∈ bps ∧ Original p code t' := by
  induction n generalizing t with
  | zero => cases reached
  | succ n ih =>
    rw [Program.runTo] at reached
    by_cases here : rip t.regs ∈ bps
    · rw [if_pos here] at reached
      obtain rfl := Option.some.inj reached
      have planted : (t.arm bps).mem (rip (t.arm bps).regs) = some int3 := by
        rw [Tracee.arm_mem, Tracee.arm_regs, if_pos here]
      rw [Program.resume, lawful.trap _ planted]
      exact ⟨rfl, here, own⟩
    · rw [if_neg here] at reached
      by_cases intact : Intact len bps t
      swap
      · simp [intact] at reached
      rw [if_pos intact] at reached
      cases moved : p.step t with
      | next t₁ =>
        rw [moved] at reached
        rw [Program.resume, lawful.step_arm own inside here intact moved]
        exact ih (lawful.original own moved) reached
      | stop sig t₁ => simp [moved] at reached
      | exited code => simp [moved] at reached
      | signaled sig core => simp [moved] at reached

theorem rewind_trapped (t : Tracee κ) : rewind (trapped t) = t := by
  refine Tracee.ext_mem ?_ rfl fun _ => rfl
  simp [rewind, trapped]

theorem Matches.unarm (h : Matches p code ins w s) {bp : Breakpoint} (listed : bp ∈ w.info.bpVec) :
    unarm bp (s.tracee.arm s.bps) = s.tracee.arm (s.bps.filter (· ≠ bp.addr)) := by
  refine Tracee.ext_mem rfl rfl fun x => ?_
  change Function.update (s.tracee.arm s.bps).mem bp.addr (some bp.origPatch) x = _
  rw [Tracee.arm_mem]
  by_cases here : x = bp.addr
  · subst here
    rw [Function.update_self, if_neg (by simp), h.saved bp listed]
  · rw [Function.update_of_ne here, Tracee.arm_mem]
    simp [here]

/-- Leaving the breakpoint reported last, the way `cont` does it. -/
theorem Matches.stepped (lawful : Lawful p code len) (h : Matches p code ins w s)
    (listed : w.bpRestore ∈ w.info.bpVec) (here : rip s.tracee.regs = w.bpRestore.addr)
    (intact : Intact len s.bps s.tracee) (readable : Readable s.tracee.mem w.bpRestore.addr)
    (moved : p.step s.tracee = .next t)
    (gentle : ∀ x ∈ window w.bpRestore.addr 8, x ≠ w.bpRestore.addr → t.mem x = s.tracee.mem x) :
    ∃ t', p.step (Sdb.unarm w.bpRestore (s.tracee.arm s.bps)) = .next t' ∧
      Readable t'.mem w.bpRestore.addr ∧
      rearm w.bpRestore (s.tracee.arm s.bps) t' = t.arm s.bps := by
  have armed : w.bpRestore.addr ∈ s.bps := h.addrs ▸ mem_addrs listed
  have fewer : ∀ a ∈ s.bps.filter (· ≠ w.bpRestore.addr), a ∈ s.bps :=
    fun a ha => (List.mem_filter.mp ha).1
  have same : ∀ x ∈ window w.bpRestore.addr 8, t.mem x = s.tracee.mem x := by
    intro x near
    by_cases first : x = w.bpRestore.addr
    · have inside := h.inside x (first ▸ armed)
      rw [lawful.original h.original moved x inside, h.original x inside]
    · exact gentle x near first
  refine ⟨t.arm (s.bps.filter (· ≠ w.bpRestore.addr)), ?_, ?_, ?_⟩
  · rw [h.unarm listed]
    exact lawful.step_arm h.original (fun a ha => h.inside a (fewer a ha)) (by simp [here])
      (fun x ha near => intact x (fewer x ha) near) moved
  · refine readable_arm fun i hi => ?_
    rw [same _ (add_mem_window _ hi (by decide))]
    exact readable i hi
  · refine Tracee.ext_mem rfl rfl fun x => ?_
    change Function.update ((window w.bpRestore.addr 8).piecewise (s.tracee.arm s.bps).mem
      (t.arm (s.bps.filter (· ≠ w.bpRestore.addr))).mem) w.bpRestore.addr (some int3) x = _
    by_cases first : x = w.bpRestore.addr
    · rw [first, Function.update_self, Tracee.arm_mem, if_pos armed]
    · rw [Function.update_of_ne first]
      by_cases near : x ∈ window w.bpRestore.addr 8
      · rw [Set.piecewise_eq_of_mem _ _ _ near, Tracee.arm_mem, Tracee.arm_mem, same x near]
      · rw [Set.piecewise_eq_of_notMem _ _ _ near, Tracee.arm_mem, Tracee.arm_mem]
        simp [first]

/-- The plain program leaves the breakpoint reported last by a step, and stays where it is
elsewhere. -/
theorem Plain.leave_cases (left : s.leave p len = some t) :
    (s.reported = some (rip s.tracee.regs) ∧ Intact len s.bps s.tracee ∧
        Readable s.tracee.mem (rip s.tracee.regs) ∧ p.step s.tracee = .next t) ∨
      (s.reported ≠ some (rip s.tracee.regs) ∧ t = s.tracee) := by
  unfold Plain.leave at left
  by_cases reported : s.reported = some (rip s.tracee.regs)
  · rw [if_pos reported] at left
    by_cases fits : Intact len s.bps s.tracee ∧ Readable s.tracee.mem (rip s.tracee.regs)
    swap
    · simp [fits] at left
    rw [if_pos fits] at left
    cases moved : p.step s.tracee with
    | next t₁ =>
      rw [moved] at left
      obtain rfl := Option.some.inj left
      exact .inl ⟨reported, fits.1, fits.2, rfl⟩
    | stop sig t₁ => simp [moved] at left
    | exited code => simp [moved] at left
    | signaled sig core => simp [moved] at left
  · rw [if_neg reported] at left
    exact .inr ⟨reported, (Option.some.inj left).symm⟩

/-- Where `cont` launches the debuggee, the plain program has left the breakpoint. -/
theorem Matches.launch (lawful : Lawful p code len) (h : Matches p code ins w s) {c : Child κ}
    (prog : c.prog = p) (patched : c.tracee = s.tracee.arm s.bps)
    (nonzero : rip s.tracee.regs ≠ 0) (gentle : s.Gentle p)
    (left : s.leave p len = some t) :
    Original p code t ∧ ∃ bp, Launch w c (t.arm s.bps) bp := by
  have at_rip : rip c.tracee.regs = rip s.tracee.regs := by rw [patched, Tracee.arm_regs]
  obtain ⟨reported, intact, mapped, moved⟩ | ⟨elsewhere, rfl⟩ := Plain.leave_cases left
  · obtain ⟨-, silent⟩ | ⟨listed, known⟩ := h.restore
    · rw [silent] at reported
      cases reported
    have here : rip s.tracee.regs = w.bpRestore.addr := Option.some.inj (reported.symm.trans known)
    have tail := gentle reported
    rw [moved, here] at tail
    have still : ∀ x ∈ window w.bpRestore.addr 8, x ≠ w.bpRestore.addr → t.mem x = s.tracee.mem x := by
      intro x near other
      obtain ⟨i, hi, rfl⟩ := (mem_window_iff (by decide)).mp near
      exact tail i hi (by rintro rfl; exact other (by simp))
    obtain ⟨t', stepped, readable, same⟩ :=
      h.stepped lawful listed here intact (here ▸ mapped) moved still
    refine ⟨lawful.original h.original moved, .empty, ?_⟩
    rw [← same, ← patched]
    refine .stepped (at_rip.trans here) ?_ ?_ readable
    · rw [patched]
      exact readable_arm (here ▸ mapped)
    · rw [prog, patched, stepped]
      rfl
  · refine ⟨h.original, w.bpRestore, ?_⟩
    rw [← patched]
    refine .away ?_
    rw [at_rip]
    obtain ⟨unset, -⟩ | ⟨-, known⟩ := h.restore
    · rw [unset]
      exact nonzero
    · exact fun here => elsewhere (here ▸ known)

/-- The plain `cont`, once it is known to reach a breakpoint. -/
theorem Plain.exec_cont {n : Nat} (went : Plain.exec p len ins n .cont s = some s') :
    rip s.tracee.regs ≠ 0 ∧ ∃ t t', s.leave p len = some t ∧ p.runTo len s.bps n t = some t' ∧
      s' = { s with tracee := t', reported := some (rip t'.regs) } := by
  rw [Plain.exec] at went
  by_cases zero : rip s.tracee.regs = 0
  · simp [zero] at went
  · rw [if_neg zero] at went
    obtain ⟨t', reached, rfl⟩ := Option.map_eq_some_iff.mp went
    obtain ⟨t, left, reached⟩ := Option.bind_eq_some_iff.mp reached
    exact ⟨zero, t, t', left, reached, rfl⟩

theorem Matches.hit (h : Matches p code ins w s) (reached : rip t.regs ∈ s.bps) :
    ∃ it, hit? w.origInstructions (trapped (t.arm s.bps)).regs w.info.bpVec = some it ∧
      it ∈ w.info.bpVec ∧ it.addr = rip t.regs := by
  obtain ⟨bp, listed, at_bp⟩ := List.mem_map.mp (h.addrs ▸ reached : rip t.regs ∈ w.info.addrs)
  have back : rip (trapped (t.arm s.bps)).regs - 1 = rip t.regs := by simp [trapped]
  have matching : ∃ it ∈ w.info.bpVec,
      it.addr = rip (trapped (t.arm s.bps)).regs - 1 ∧ Recorded w.origInstructions it.addr :=
    ⟨bp, listed, at_bp.trans back.symm, h.instructions ▸ at_bp ▸ h.recorded _ reached⟩
  obtain ⟨it, found⟩ := Option.isSome_iff_exists.mp
    (List.find?_isSome.mpr (by simpa using matching) : (hit? w.origInstructions
      (trapped (t.arm s.bps)).regs w.info.bpVec).isSome)
  have fits := List.find?_some found
  simp only [decide_eq_true_eq] at fits
  exact ⟨it, found, List.mem_of_find?_eq_some found, fits.1.trans back⟩

/-- `cont` comes back, and with the plain program's registers and data. -/
theorem Matches.cont (lawful : Lawful p code len) (h : Matches p code ins w s) {n : Nat}
    (gentle : s.Gentle p) (went : Plain.exec p len ins n .cont s = some s') :
    (∃ w', Step host .cont w w') ∧ ∀ w', Step host .cont w w' → Matches p code ins w' s' := by
  obtain ⟨nonzero, t, t', left, reached, rfl⟩ := Plain.exec_cont went
  obtain ⟨c, stopped, prog, patched⟩ := h.child
  obtain ⟨own, bp, launch⟩ := h.launch lawful prog patched nonzero gentle left
  obtain ⟨answer, at_bp, own'⟩ := lawful.resume_arm h.inside own reached
  obtain ⟨it, found, listed, addr⟩ := h.hit at_bp
  rw [← prog] at answer
  refine ⟨?_, fun w' step => ?_⟩
  · have back : ∃ w', Sdb.cont host.uninit.status n w = .ok () w' :=
      cont_returns stopped h.running launch answer
    exact back.imp fun w' ok => ⟨n, ok⟩
  · obtain ⟨k, ok⟩ := step
    obtain ⟨t₂, bp₂, launch₂, landing⟩ := cont_ok stopped h.running ok
    obtain ⟨rfl, rfl⟩ := launch.unique launch₂
    cases landing with
    | hit l answer' left' found' =>
      obtain rfl := Program.resume_unique answer answer'
      obtain rfl := Option.some.inj left'
      obtain rfl := Option.some.inj (found.symm.trans found')
      refine ⟨⟨_, ⟨rfl, stopped.pid, stopped.resumed⟩, prog, rewind_trapped _⟩, h.running, h.addrs,
        h.distinct, fun bp known => ?_, h.instructions, h.recorded, h.sites, own', .inr ⟨listed, ?_⟩⟩
      · have inside := h.inside _ (h.addrs ▸ mem_addrs known)
        rw [own' _ inside, ← h.original _ inside, h.saved bp known]
      · exact congrArg some addr.symm
    | stop l answer' left' found' =>
      obtain rfl := Program.resume_unique answer answer'
      obtain rfl := Option.some.inj left'
      rw [found] at found'
      cases found'
    | exited l answer' => cases Program.resume_unique answer answer'
    | signaled l answer' => cases Program.resume_unique answer answer'

/-- A command that is known to end in `v`. -/
theorem Matches.ends {cmd : Command} {v : World κ} (same : ∀ n, exec host n cmd w = .ok () v)
    (h : Matches p code ins v s) :
    (∃ w', Step host cmd w w') ∧ ∀ w', Step host cmd w w' → Matches p code ins w' s := by
  refine ⟨⟨v, 0, same 0⟩, fun w' ⟨n, ok⟩ => ?_⟩
  rw [same n] at ok
  cases ok
  exact h

theorem Tracee.arm_congr {A B : List Addr} (same : ∀ x, x ∈ A ↔ x ∈ B) (t : Tracee κ) :
    t.arm A = t.arm B := Tracee.ext_mem rfl rfl fun x => by simp only [arm_mem, same]

theorem Matches.log (h : Matches p code ins w s) (l : List Effect) :
    Matches p code ins { w with log := l } s :=
  ⟨h.child.imp fun _ ⟨stopped, rest⟩ => ⟨stopped.log l, rest⟩, h.running, h.addrs, h.distinct,
    h.saved, h.instructions, h.recorded, h.sites, h.original, h.restore⟩

theorem Tracee.plant_arm (armed : List Addr) (addr : Addr) (t : Tracee κ) :
    plant addr (t.arm armed) = t.arm (armed ++ [addr]) := by
  refine Tracee.ext_mem rfl rfl fun x => ?_
  change Function.update (t.arm armed).mem addr (some int3) x = _
  rw [Tracee.arm_mem]
  by_cases here : x = addr
  · simp [here]
  · rw [Function.update_of_ne here, Tracee.arm_mem]
    simp [here]

/-- The plain `break`, once it is known to set the breakpoint or to find it set. -/
theorem Plain.exec_break {n : Nat} {addr : Addr}
    (went : Plain.exec p len ins n (.break addr) s = some s') :
    (addr ∈ s.bps ∧ s' = s) ∨
      (addr ∉ s.bps ∧ Recorded ins addr ∧ Readable s.tracee.mem addr ∧
        s' = { s with bps := s.bps ++ [addr] }) := by
  rw [Plain.exec] at went
  by_cases known : addr ∈ s.bps
  · rw [if_pos known] at went
    exact .inl ⟨known, (Option.some.inj went).symm⟩
  · rw [if_neg known] at went
    by_cases able : Recorded ins addr ∧ Readable s.tracee.mem addr
    · rw [if_pos able] at went
      exact .inr ⟨known, able.1, able.2, (Option.some.inj went).symm⟩
    · simp [able] at went

theorem Matches.plant (h : Matches p code ins w s) {n : Nat} {addr : Addr}
    (went : Plain.exec p len ins n (.break addr) s = some s') :
    (∃ w', Step host (.break addr) w w') ∧
      ∀ w', Step host (.break addr) w w' → Matches p code ins w' s' := by
  obtain ⟨c, stopped, prog, patched⟩ := h.child
  obtain ⟨l, same⟩ := setBp_eq stopped h.running addr
  obtain ⟨known, rfl⟩ | ⟨new, recorded, mapped, rfl⟩ := Plain.exec_break went
  · rw [if_pos (h.addrs ▸ known)] at same
    exact Matches.ends (fun _ => same) (h.log l)
  rw [if_neg (h.addrs ▸ new)] at same
  have readable : Readable c.tracee.mem addr := by
    rw [patched]
    exact readable_arm mapped
  obtain ⟨word, read⟩ := Option.isSome_iff_exists.mp (peek_isSome_iff.mpr readable)
  have held : s.tracee.mem addr = some (byte word 0) := by
    rw [← low_of_peek read, patched, Tracee.arm_mem, if_neg new]
  rw [read] at same
  refine Matches.ends (fun _ => same) ⟨⟨_, ⟨rfl, stopped.pid, stopped.resumed⟩, prog, ?_⟩, h.running, ?_,
    ?_, ?_, h.instructions, ?_, h.sites, h.original, ?_⟩
  · change Sdb.plant addr c.tracee = s.tracee.arm (s.bps ++ [addr])
    rw [patched, Tracee.plant_arm]
  · simp [ProgInfo.addrs, ← h.addrs]
  · exact List.nodup_append.mpr ⟨h.distinct, List.nodup_singleton _, fun a listed b single equal =>
      new (List.mem_singleton.mp single ▸ equal ▸ listed)⟩
  · intro bp listed
    obtain old | last := List.mem_append.mp listed
    · exact h.saved bp old
    · obtain rfl := List.mem_singleton.mp last
      exact held
  · intro a listed
    obtain old | last := List.mem_append.mp listed
    · exact h.recorded a old
    · obtain rfl := List.mem_singleton.mp last
      exact recorded
  · exact h.restore.imp_right (And.imp_left (List.mem_append_left _))

theorem Matches.remove (h : Matches p code ins w s) {n : Nat} {idx : Int}
    (went : Plain.exec p len ins n (.delete idx) s = some s') :
    (∃ w', Step host (.delete idx) w w') ∧
      ∀ w', Step host (.delete idx) w w' → Matches p code ins w' s' := by
  obtain ⟨c, stopped, prog, patched⟩ := h.child
  have at_idx : s.bps[bpIndex idx]? = (w.info.bpVec[bpIndex idx]?).map Breakpoint.addr := by
    rw [← h.addrs, ProgInfo.addrs, List.getElem?_map]
  rw [Plain.exec, at_idx] at went
  cases found : w.info.bpVec[bpIndex idx]? with
  | none =>
    rw [found] at went
    obtain rfl := Option.some.inj went
    have same : ∃ l, delBp idx w = .ok () { w with log := l } := by
      simp [delBp, found, stderr, emit]
    obtain ⟨l, same⟩ := same
    exact Matches.ends (fun _ => same) (h.log l)
  | some bp =>
    rw [found] at went
    simp only [Option.map_some] at went
    by_cases readable : Readable s.tracee.mem bp.addr
    swap
    · simp [readable] at went
    rw [if_pos readable] at went
    obtain rfl := Option.some.inj went
    obtain ⟨l, same⟩ := delBp_eq stopped found
    rw [if_pos (patched ▸ readable_arm readable)] at same
    have listed := List.mem_of_getElem? found
    have split := addrs_eraseIdx (h.addrs ▸ h.distinct) found
    have rest : ProgInfo.addrs { w.info with bpVec := w.info.bpVec.eraseIdx (bpIndex idx) } =
        s.bps.eraseIdx (bpIndex idx) := by
      rw [← h.addrs, ProgInfo.addrs, ProgInfo.addrs, List.eraseIdx_map]
    refine Matches.ends (fun _ => same) ⟨⟨_, ⟨rfl, stopped.pid, stopped.resumed⟩, prog, ?_⟩, h.running,
      rest, ?_, ?_, h.instructions, ?_, h.sites, h.original, ?_⟩
    · change Sdb.unarm bp c.tracee = s.tracee.arm (s.bps.eraseIdx (bpIndex idx))
      rw [patched, h.unarm listed]
      refine Tracee.arm_congr (fun x => ?_) s.tracee
      rw [← rest, ProgInfo.addrs, split, h.addrs]
      simp
    · exact h.distinct.sublist (List.eraseIdx_sublist _ _)
    · exact fun bp' kept => h.saved bp' (List.mem_of_mem_eraseIdx kept)
    · exact fun a kept => h.recorded a (List.mem_of_mem_eraseIdx kept)
    · obtain ⟨unset, silent⟩ | ⟨held, reported⟩ := h.restore
      · left
        simp [unset, silent]
      · by_cases first : w.bpRestore.addr = bp.addr
        · left
          simp [first, reported]
        · right
          simp [first, reported, mem_eraseIdx_of_ne found held first]

theorem Matches.register (h : Matches p code ins w s) {n : Nat} {reg : String} {val : BitVec 64}
    (went : Plain.exec p len ins n (.set reg val) s = some s') :
    (∃ w', Step host (.set reg val) w w') ∧
      ∀ w', Step host (.set reg val) w w' → Matches p code ins w' s' := by
  obtain ⟨c, stopped, prog, patched⟩ := h.child
  obtain ⟨l, same⟩ := setReg_eq stopped h.running reg val
  rw [Plain.exec] at went
  cases found : regsOffset.lookup reg with
  | none =>
    rw [found] at went same
    obtain rfl := Option.some.inj went
    exact Matches.ends (fun _ => same) (h.log l)
  | some offset =>
    rw [found] at went same
    obtain rfl := Option.some.inj went
    exact Matches.ends (fun _ => same) ⟨⟨_, ⟨rfl, stopped.pid, stopped.resumed⟩, prog,
      by rw [patched]; rfl⟩, h.running, h.addrs, h.distinct, h.saved, h.instructions, h.recorded,
      h.sites, h.original, h.restore⟩

/-- One command, on `sdb` and on the plain debugger. -/
theorem Matches.step (lawful : Lawful p code len) {cmd : Command} (h : Matches p code ins w s)
    (went : Plain.Step p len ins cmd s s') (gentle : cmd = .cont → s.Gentle p) :
    (∃ w', Step host cmd w w') ∧ ∀ w', Step host cmd w w' → Matches p code ins w' s' := by
  obtain ⟨n, went⟩ := went
  cases cmd with
  | cont => exact h.cont lawful (gentle rfl) went
  | «break» addr => exact h.plant went
  | delete idx => exact h.remove went
  | set reg val => exact h.register went
  | _ => cases went

end Matching

section Runs

/-- A step of the plain debugger in which `cont` steps over nothing but gentle instructions. -/
def Plain.GentleStep (p : Program κ) (len : Addr → Nat) (ins : List Instruction1) (cmd : Command)
    (s s' : Plain κ) : Prop := Plain.Step p len ins cmd s s' ∧ (cmd = .cont → s.Gentle p)

/-- The patching invariant of a `RUNNING` state, with every breakpoint recorded. -/
structure Ready (code : Set Addr) (w : World κ) (c : Child κ) : Prop where
  stopped : w.Stopped c
  running : w.info.state = .running
  distinct : w.info.addrs.Nodup
  saved : ∀ bp ∈ w.info.bpVec, c.prog.image.mem bp.addr = some bp.origPatch
  patched : Patched code c.prog.image.mem w.info.addrs c.tracee.mem
  recorded : ∀ a ∈ w.info.addrs, Recorded w.origInstructions a
  sites : ∀ i ∈ w.origInstructions, i.addr ∈ code
  restore : w.bpRestore = .empty ∨ w.bpRestore ∈ w.info.bpVec

/-- The plain state behind `w`: the saved bytes put back. -/
def World.plain (w : World κ) (c : Child κ) : Plain κ where
  tracee := { c.tracee with
    mem := fun x =>
      match w.info.bpVec.find? fun bp => bp.addr = x with
      | some bp => some bp.origPatch
      | none => c.tracee.mem x }
  bps := w.info.addrs
  reported := if w.bpRestore = .empty then none else some w.bpRestore.addr

variable {code : Set Addr} {len : Addr → Nat} {host : Host κ} {w : World κ} {c : Child κ}

@[simp] theorem World.plain_bps : (w.plain c).bps = w.info.addrs := rfl

theorem Ready.plain_mem (ready : Ready code w c) {x : Addr} (listed : x ∈ w.info.addrs) :
    (w.plain c).tracee.mem x = c.prog.image.mem x := by
  obtain ⟨bp, known, rfl⟩ := List.mem_map.mp listed
  obtain ⟨it, found⟩ := Option.isSome_iff_exists.mp
    (List.find?_isSome.mpr ⟨bp, known, by simp⟩ :
      (w.info.bpVec.find? fun it => it.addr = bp.addr).isSome)
  have same : it.addr = bp.addr := by simpa using List.find?_some found
  change (match w.info.bpVec.find? fun it => it.addr = bp.addr with
    | some it => some it.origPatch
    | none => c.tracee.mem bp.addr) = _
  rw [found, ← same]
  exact (ready.saved it (List.mem_of_find?_eq_some found)).symm

theorem World.plain_mem_of_notMem {x : Addr} (unlisted : x ∉ w.info.addrs) :
    (w.plain c).tracee.mem x = c.tracee.mem x := by
  have missing : (w.info.bpVec.find? fun it => it.addr = x) = none := by
    refine List.find?_eq_none.mpr fun bp known same => unlisted ?_
    exact of_decide_eq_true same ▸ mem_addrs known
  change (match w.info.bpVec.find? fun it => it.addr = x with
    | some it => some it.origPatch
    | none => c.tracee.mem x) = _
  rw [missing]

theorem Session.ready {p : Program κ} (h : Session p code w c) (stopped : w.Stopped c)
    (running : w.info.state = .running) (recorded : ∀ a ∈ w.info.addrs, Recorded w.origInstructions a)
    (sites : ∀ i ∈ w.origInstructions, i.addr ∈ code)
    (restore : w.bpRestore = .empty ∨ w.bpRestore.addr ≠ 0) : Ready code w c := by
  obtain rfl := h.prog
  refine ⟨stopped, running, h.distinct, fun bp known => ?_, h.sane.patched, recorded, sites,
    restore.imp_right h.restore⟩
  obtain ⟨i, found, same⟩ := recorded _ (mem_addrs known)
  exact h.saved bp known (same ▸ sites i found)

theorem Ready.inside (ready : Ready code w c) : ∀ a ∈ w.info.addrs, a ∈ code := by
  intro a listed
  obtain ⟨i, found, rfl⟩ := ready.recorded a listed
  exact ready.sites i found

theorem Ready.matches (ready : Ready code w c) :
    Matches c.prog code w.origInstructions w (w.plain c) where
  child := by
    refine ⟨c, ready.stopped, rfl, Tracee.ext_mem rfl rfl fun x => ?_⟩
    rw [Tracee.arm_mem, World.plain_bps]
    by_cases listed : x ∈ w.info.addrs
    · rw [if_pos listed, ready.patched x (ready.inside x listed), if_pos listed]
    · rw [if_neg listed, World.plain_mem_of_notMem listed]
  running := ready.running
  addrs := rfl
  distinct := ready.distinct
  saved bp known := (ready.plain_mem (mem_addrs known)).trans (ready.saved bp known)
  instructions := rfl
  recorded := ready.recorded
  sites := ready.sites
  original x inside := by
    by_cases listed : x ∈ w.info.addrs
    · exact ready.plain_mem listed
    · rw [World.plain_mem_of_notMem listed, ready.patched x inside, if_neg listed]
  restore := by
    by_cases unset : w.bpRestore = .empty
    · exact .inl ⟨unset, if_pos unset⟩
    · exact .inr ⟨ready.restore.resolve_left unset, if_neg unset⟩

/-- Along every plain run in which `cont` steps over gentle instructions only, `sdb`
comes back from the same commands, with the plain program's registers and memory
and `int3` at the breakpoints. -/
theorem cont_simulates {cs : List Command} {s' : Plain κ} (lawful : Lawful c.prog code len)
    (ready : Ready code w c)
    (run : Run (Plain.GentleStep c.prog len w.origInstructions) cs (w.plain c) s') :
    (∃ w', Run (Step host) cs w w') ∧
    ∀ w', Run (Step host) cs w w' → Matches c.prog code w.origInstructions w' s' := by
  have sim : ∀ cmd v s t, Matches c.prog code w.origInstructions v s →
      Plain.GentleStep c.prog len w.origInstructions cmd s t →
      ∃ v', Step host cmd v v' ∧ Matches c.prog code w.origInstructions v' t := by
    intro cmd v s t related ⟨plain, gentle⟩
    obtain ⟨⟨v', moved⟩, all⟩ := related.step lawful plain gentle
    exact ⟨v', moved, all v' moved⟩
  constructor
  · obtain ⟨w', went, -⟩ := run.simulate sim ready.matches
    exact ⟨w', went⟩
  · intro w' went
    exact went.lockstep (fun cmd v v' s s' related moved ⟨plain, gentle⟩ =>
      (related.step lawful plain gentle).2 v' moved) run ready.matches

end Runs

section Fill

open Sample

/-- The worlds of a session on a sample whose breakpoints are all recorded are ready. -/
theorem ready_of_session {text : List Byte} {path : String} {cs : List Command} {n : Nat}
    {w : World Unit} (ended : session (host text) n (.load path :: .start :: cs) = some w)
    (noLoad : ∀ cmd ∈ cs, ∀ path, cmd ≠ .load path) {c : Child Unit} (alive : w.child = some c)
    (recorded : ∀ a ∈ w.info.addrs, Recorded w.origInstructions a)
    (sites : ∀ i ∈ w.origInstructions, data i.addr = false)
    (restore : w.bpRestore = .empty ∨ w.bpRestore.addr ≠ 0) :
    Reachable (host text) w ∧ Ready (code data) w c ∧ c.prog = sample text := by
  obtain ⟨reached, stopped, running, now⟩ := session_of_sample ended noLoad alive
  exact ⟨reached, now.ready stopped running recorded sites restore, now.prog⟩

theorem cont_simulates_fill : ∃ w c s', Reachable (host fill) w ∧ Ready (code data) w c ∧
    Run (Plain.GentleStep (sample fill) (len data (image fill)) w.origInstructions)
      [.cont, .delete 1] (w.plain c) s' ∧
    (∃ w', Run (Step (host fill)) [.cont, .delete 1] w w') ∧
    ∀ w', Run (Step (host fill)) [.cont, .delete 1] w w' →
      Matches (sample fill) (code data) w.origInstructions w' s' := by
  have summary : ((session (host fill) 40
      [.load "fill", .start, .break 0x401ff8, .break 0x401ffd, .cont]).bind fun w =>
      w.child.bind fun c =>
        (Plain.exec (sample fill) (len data (image fill)) w.origInstructions 40 .cont
          (w.plain c)).bind fun s =>
        (Plain.exec (sample fill) (len data (image fill)) w.origInstructions 40 (.delete 1) s).map
          fun _ => (w.info.addrs.all fun a => Recorded w.origInstructions a,
            w.origInstructions.all fun i => !data i.addr, w.bpRestore.addr,
            decide ((w.plain c).Gentle (sample fill)))) = some (true, true, 0x401ff8, true) := by
    decide +kernel
  obtain ⟨w, ended, rest⟩ := Option.bind_eq_some_iff.mp summary
  obtain ⟨c, alive, rest⟩ := Option.bind_eq_some_iff.mp rest
  obtain ⟨s, first, rest⟩ := Option.bind_eq_some_iff.mp rest
  obtain ⟨s', second, facts⟩ := Option.map_eq_some_iff.mp rest
  simp only [Prod.mk.injEq, List.all_eq_true, decide_eq_true_eq, Bool.not_eq_true'] at facts
  obtain ⟨recorded, sites, at_bp, gentle⟩ := facts
  obtain ⟨reached, ready, own⟩ := ready_of_session ended (by simp) alive recorded sites
    (.inr (by rw [at_bp]; decide))
  have run : Run (Plain.GentleStep (sample fill) (len data (image fill)) w.origInstructions)
      [.cont, .delete 1] (w.plain c) s' :=
    .cons ⟨⟨40, first⟩, fun _ => gentle⟩ (.single ⟨⟨40, second⟩, fun same => by cases same⟩)
  have both : (∃ w', Run (Step (host fill)) [.cont, .delete 1] w w') ∧
      ∀ w', Run (Step (host fill)) [.cont, .delete 1] w w' →
        Matches c.prog (code data) w.origInstructions w' s' :=
    cont_simulates (own ▸ sample_lawful fill) ready (own ▸ run)
  rw [own] at both
  exact ⟨w, c, s', reached, ready, run, both⟩

/-- `stosb` in front of the data, stepped over from a breakpoint: the byte it writes
is gone when `cont` comes back. -/
theorem cont_loses_write : ∃ w c s' w' c', Reachable (host fill) w ∧ Ready (code data) w c ∧
    Lawful c.prog (code data) (len data (image fill)) ∧
    Plain.Step c.prog (len data (image fill)) w.origInstructions .cont (w.plain c) s' ∧
    Step (host fill) .cont w w' ∧ w'.child = some c' ∧
    s'.tracee.mem 0x402000 = some 0x41 ∧ c'.tracee.mem 0x402000 = some 0 := by
  have summary : ((session (host fill) 40 [.load "fill", .start, .break 0x401ffd, .cont]).bind fun w =>
      w.child.bind fun c =>
        (Plain.exec (sample fill) (len data (image fill)) w.origInstructions 40 .cont
          (w.plain c)).bind fun s' =>
        (next? (host fill) 40 .cont w).bind fun w' => w'.child.map fun c' =>
          (w.info.addrs.all fun a => Recorded w.origInstructions a,
            w.origInstructions.all fun i => !data i.addr, w.bpRestore.addr,
            s'.tracee.mem 0x402000, c'.tracee.mem 0x402000)) =
      some (true, true, 0x401ffd, some 0x41, some 0) := by
    decide +kernel
  obtain ⟨w, ended, rest⟩ := Option.bind_eq_some_iff.mp summary
  obtain ⟨c, alive, rest⟩ := Option.bind_eq_some_iff.mp rest
  obtain ⟨s', plain, rest⟩ := Option.bind_eq_some_iff.mp rest
  obtain ⟨w', went, rest⟩ := Option.bind_eq_some_iff.mp rest
  obtain ⟨c', alive', facts⟩ := Option.map_eq_some_iff.mp rest
  simp only [Prod.mk.injEq, List.all_eq_true, decide_eq_true_eq, Bool.not_eq_true'] at facts
  obtain ⟨recorded, sites, at_bp, kept, lost⟩ := facts
  obtain ⟨reached, ready, own⟩ := ready_of_session ended (by simp) alive recorded sites
    (.inr (by rw [at_bp]; decide))
  exact ⟨w, c, s', w', c', reached, ready, own ▸ sample_lawful fill, own ▸ ⟨40, plain⟩,
    ⟨40, exec_of_next? went⟩, alive', kept, lost⟩

end Fill

end UnixProgramming.Sdb
