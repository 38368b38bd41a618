import Mathlib.Data.List.Pairwise
import UnixProgramming.Sdb.Hit
import UnixProgramming.Sdb.Output
import UnixProgramming.Sdb.Sweep

/-!
# Listings

Every `start` adds the instructions of its program to the recorded ones, and nothing
removes them. `disasm` and the report of a hit take the first one with an address, so they
show the current program as long as no earlier one has recorded an address of it.
-/

namespace UnixProgramming.Sdb

open Memory Transition Stateful Text

variable {κ : Type}

section Own

/-- `new` is what the last `start` has recorded: the instructions of the current program. -/
structure OwnCode (host : Host κ) (w : World κ) (old new : List Instruction1) : Prop where
  listed : w.origInstructions = old ++ new
  decoded : ∃ prog, host.exec w.info.path = some prog ∧
    (host.csOpen = true →
      Decodes host prog.image.mem (w.info.entry + w.info.size) w.info.entry new) ∧
    (host.csOpen ≠ true → new = [])

/-- For each of these instructions `disasm` shows it and at most nine that follow it, and
the report of a hit prints it. -/
structure ListsOwn (host : Host κ) (w : World κ) (new : List Instruction1) : Prop where
  disasm : ∀ before i after, new = before ++ i :: after →
    Shows host (.disasm i.addr) w (((i :: after).take 10).map printInstruction)
  hit : ∀ i ∈ new, ∀ t' w', Reports w t' i.addr w' → ∃ e l,
    w'.log = e :: .stderr (printInstruction i) :: .stderr "** breakpoint @\t" :: l

/-- No instruction of the program that the command starts has an address that is recorded. -/
def Fresh (host : Host κ) (w : World κ) (cmd : Command) : Prop :=
  (cmd = .start ∨ cmd = .run) → w.info.state = .loaded → host.csOpen = true →
    ∀ prog new, host.exec w.info.path = some prog →
      Decodes host prog.image.mem (w.info.entry + w.info.size) w.info.entry new →
      ∀ i ∈ new, ¬ Recorded w.origInstructions i.addr

variable {host : Host κ} {w w' v : World κ} {old new : List Instruction1} {n : Nat} {cmd : Command}

theorem OwnCode.unique {old' new' : List Instruction1} (h : OwnCode host w old new)
    (h' : OwnCode host w old' new') : old = old' ∧ new = new' := by
  obtain ⟨listed, prog, found, decodes, none⟩ := h
  obtain ⟨listed', prog', found', decodes', none'⟩ := h'
  obtain rfl := Option.some.inj (found.symm.trans found')
  have same : new = new' := by
    by_cases opened : host.csOpen = true
    · exact (decodes opened).unique (decodes' opened)
    · rw [none opened, none' opened]
  subst same
  exact ⟨List.append_cancel_right (listed.symm.trans listed'), rfl⟩

theorem start_own (loaded : w.info.state = .loaded) (ok : start host n w = .ok () v) :
    ∃ new, OwnCode host v w.origInstructions new ∧ v.info.path = w.info.path ∧
      v.info.entry = w.info.entry ∧ v.info.size = w.info.size := by
  obtain ⟨idle, -⟩ | ⟨ins, l, -, forked, found⟩ := start_ok ok
  · exact absurd loaded idle
  obtain ⟨pid, prog, l', forked', found', swept⟩ := start_sweeps loaded ok
  obtain rfl := Option.some.inj (forked.symm.trans forked')
  obtain rfl := Option.some.inj (found.symm.trans found')
  by_cases opened : host.csOpen = true
  · simp only [getOrigCode, bind_apply, get_apply, opened, if_true] at swept
    obtain ⟨new, listed, decodes⟩ := sweep_decodes _ _ _ _ _ _ _ swept
    exact ⟨new, ⟨listed, _, found, fun _ => decodes, fun closed => absurd opened closed⟩, rfl, rfl, rfl⟩
  · simp [getOrigCode, opened, stderr, emit] at swept
    exact ⟨[], ⟨by rw [← swept.1]; simp, _, found, fun yes => absurd yes opened, fun _ => rfl⟩,
      rfl, rfl, rfl⟩

/-- The current program and what is recorded are the same. -/
def SameProgram (w w' : World κ) : Prop :=
  w'.info.path = w.info.path ∧ w'.info.entry = w.info.entry ∧ w'.info.size = w.info.size ∧
    w'.origInstructions = w.origInstructions

theorem SameButLog.program (same : SameButLog w w') : SameProgram w w' := by
  rw [same]
  exact ⟨rfl, rfl, rfl, rfl⟩

theorem OwnCode.congr (h : OwnCode host w old new) (same : SameProgram w w') :
    OwnCode host w' old new := by
  obtain ⟨path, entry, size, ins⟩ := same
  exact ⟨ins.trans h.listed, by rw [path, entry, size]; exact h.decoded⟩

theorem Continued.program (went : Continued n w w') (running : w'.info.state = .running) :
    w.info.state = .running ∧ SameProgram w w' := by
  obtain ⟨c, t, bp, -, before, -, landing⟩ := went
  refine ⟨before, ?_⟩
  cases landing with
  | hit l => exact ⟨rfl, rfl, rfl, rfl⟩
  | stop l => exact ⟨rfl, rfl, rfl, rfl⟩
  | exited l => cases running
  | signaled l => exact ⟨rfl, rfl, rfl, rfl⟩

/-- A command that ends in the `RUNNING` state keeps the program, or has started it. -/
theorem Outcome.program (out : Outcome host w cmd w')
    (running : w'.info.state = .running) (began : cmd = .start → ∃ n, start host n w = .ok () w') :
    w.info.state = .running ∧ SameProgram w w' ∨
    (cmd = .start ∨ cmd = .run) ∧ w.info.state = .loaded ∧
      ∃ n v, start host n w = .ok () v ∧ SameProgram v w' := by
  cases out with
  | quiet same =>
    have info : w'.info = w.info := by rw [same]
    exact .inl ⟨by rw [← info]; exact running, same.program⟩
  | planted l _ before => exact .inl ⟨before, rfl, rfl, rfl, rfl⟩
  | removed l => exact .inl ⟨running, rfl, rfl, rfl, rfl⟩
  | register l _ before => exact .inl ⟨before, rfl, rfl, rfl, rfl⟩
  | stepped l _ before => exact .inl ⟨before, rfl, rfl, rfl, rfl⟩
  | continued went => exact .inl (went.program running)
  | resumed went => exact .inl (went.program running)
  | loaded l _ loaded =>
    rw [loaded] at running
    cases running
  | started begun =>
    obtain ⟨n, ok⟩ := began rfl
    obtain ⟨ins, l, loaded⟩ := begun
    exact .inr ⟨.inl rfl, loaded, n, _, ok, rfl, rfl, rfl, rfl⟩
  | ran ok begun went =>
    obtain ⟨-, same⟩ := went.program running
    obtain ⟨ins, l, loaded⟩ := begun
    exact .inr ⟨.inr rfl, loaded, _, _, ok, same⟩

theorem Step.program (tidy : w.Tidy) (step : Step host cmd w w') (running : w'.info.state = .running) :
    w.info.state = .running ∧ SameProgram w w' ∨
    (cmd = .start ∨ cmd = .run) ∧ w.info.state = .loaded ∧
      ∃ n v, start host n w = .ok () v ∧ SameProgram v w' := by
  refine (step.outcome tidy).program running ?_
  rintro rfl
  exact step

end Own

section Listings

variable {host : Host κ} {w w' : World κ} {old new : List Instruction1} {cmd : Command}

theorem first_recorded {ins : List Instruction1} {a : Addr} (recorded : Recorded ins a) :
    ∃ front i back, ins = front ++ i :: back ∧ i.addr = a ∧ ∀ j ∈ front, j.addr ≠ a := by
  obtain ⟨k, member, here⟩ := recorded
  cases found : ins.find? fun i => i.addr = a with
  | none => exact absurd here (by simpa using List.find?_eq_none.mp found k member)
  | some i =>
    obtain ⟨same, front, back, split, before⟩ := List.find?_eq_some_iff_append.mp found
    exact ⟨front, i, back, split, by simpa using same, by simpa using before⟩

theorem last_recorded (recorded : ∃ i ∈ new, Recorded old i.addr) :
    ∃ before i after, new = before ++ i :: after ∧ Recorded old i.addr ∧
      ∀ j ∈ after, ¬ Recorded old j.addr := by
  induction new with
  | nil =>
    obtain ⟨i, listed, -⟩ := recorded
    cases listed
  | cons k rest ih =>
    by_cases later : ∃ j ∈ rest, Recorded old j.addr
    · obtain ⟨before, i, after, rfl, again, last⟩ := ih later
      exact ⟨k :: before, i, after, rfl, again, last⟩
    · obtain ⟨i, listed, here⟩ := recorded
      obtain rfl : i = k := (List.mem_cons.mp listed).resolve_right fun member => later ⟨i, member, here⟩
      exact ⟨[], i, rest, rfl, here, fun j member again => later ⟨j, member, again⟩⟩

/-- `disasm` shows at most ten instructions from the first one with the address on. -/
theorem disasm_shows (running : w.info.state = .running) (opened : host.csOpen = true)
    {front back : List Instruction1} {i : Instruction1} (split : w.origInstructions = front ++ i :: back)
    (first : ∀ j ∈ front, j.addr ≠ i.addr) :
    Shows host (.disasm i.addr) w (((i :: back).take 10).map printInstruction) := by
  have found : w.origInstructions.findIdx? (fun ins => ins.addr = i.addr) = some front.length := by
    have none : front.findIdx? (fun ins => ins.addr = i.addr) = none :=
      List.findIdx?_eq_none_iff.mpr (by simpa using first)
    rw [split, List.findIdx?_append, none]
    simp [List.findIdx?_cons]
  have rest : w.origInstructions.drop front.length = i :: back := by
    rw [split]
    exact List.drop_left
  refine Shows.of_log (n := 0) w.log ?_ rfl
  simp only [exec, disasm, bind_apply, get_apply, running, ne_eq, not_true_eq_false, if_false, opened,
    found, rest, forIn_stderr, pure_apply]

theorem printInstruction_addr {i j : Instruction1} (same : printInstruction i = printInstruction j) :
    i.addr = j.addr := by
  have digits (v : BitVec 64) : ∀ c ∈ Nat.toDigits 16 v.toNat, decide (c ≠ ':') = true := by
    intro c member
    rw [decide_eq_true_eq]
    rintro rfl
    exact absurd ((spells_hex v.toNat).digit ':' member) (by decide)
  have front (k : Instruction1) : ((printInstruction k).toList.drop 3).takeWhile (· ≠ ':') =
      Nat.toDigits 16 k.addr.toNat := by
    have text : ∃ rest, (printInstruction k).toList.drop 3 = Nat.toDigits 16 k.addr.toNat ++ ':' :: rest := by
      apply Exists.intro
      simp [printInstruction, hex]
      rfl
    obtain ⟨rest, text⟩ := text
    rw [text, List.takeWhile_append_of_pos (digits k.addr)]
    simp
  have hexes : hex i.addr = hex j.addr := by rw [hex, hex, ← front i, ← front j, same]
  exact hex_inj.mp hexes

/-- The listing from an old instruction on, with those of the new program somewhere behind it,
is not the one from an instruction of the new program on: the second lines differ. -/
theorem listing_ne {back before after : List Instruction1} {i j : Instruction1}
    (distinct : (before ++ i :: after).Pairwise fun i j => i.addr ≠ j.addr)
    (last : ∀ k ∈ after, ∀ m ∈ back, m.addr ≠ k.addr) :
    ((j :: (back ++ (before ++ i :: after))).take 10).map printInstruction ≠
      ((i :: after).take 10).map printInstruction := by
  intro texts
  have lengths := congrArg List.length texts
  simp only [List.length_map, List.length_take, List.length_cons, List.length_append] at lengths
  cases after with
  | nil =>
    rw [List.length_nil] at lengths
    omega
  | cons k after =>
    have second {m : Instruction1} {rest : List Instruction1}
        (next : back ++ (before ++ i :: k :: after) = m :: rest) : m.addr = k.addr := by
      rw [next] at texts
      simp only [List.take_succ_cons, List.map_cons, List.cons.injEq] at texts
      exact printInstruction_addr texts.2.1
    cases back with
    | cons m back => exact last k List.mem_cons_self m List.mem_cons_self (second rfl)
    | nil =>
      cases before with
      | nil => exact (List.pairwise_cons.mp distinct).1 k List.mem_cons_self (second rfl)
      | cons b before => exact (List.pairwise_cons.mp distinct).1 k (by simp) (second rfl)

/-- An old instruction with an address of the new program is listed in its place. -/
theorem ListsOwn.fresh (running : w.info.state = .running) (opened : host.csOpen = true)
    (listed : w.origInstructions = old ++ new)
    (distinct : new.Pairwise fun i j => i.addr ≠ j.addr) (shows : ListsOwn host w new) :
    ∀ i ∈ new, ¬ Recorded old i.addr := by
  intro i member here
  obtain ⟨before, i, after, rfl, again, last⟩ := last_recorded ⟨i, member, here⟩
  obtain ⟨front, j, back, rfl, same, first⟩ := first_recorded again
  have shown : Shows host (.disasm j.addr) w
      (((j :: (back ++ (before ++ i :: after))).take 10).map printInstruction) :=
    disasm_shows running opened (by rw [listed]; simp) (same ▸ first)
  rw [same] at shown
  refine listing_ne distinct (fun k later m behind addr => ?_)
    (shown.unique (shows.disasm before i after rfl))
  exact last k later ⟨m, by simp [behind], addr⟩

theorem listsOwn_of_fresh (running : w.info.state = .running) (opened : host.csOpen = true)
    (listed : w.origInstructions = old ++ new)
    (distinct : new.Pairwise fun i j => i.addr ≠ j.addr)
    (fresh : ∀ i ∈ new, ¬ Recorded old i.addr) : ListsOwn host w new := by
  have other {i j : Instruction1} (member : i ∈ new) (older : j ∈ old) : j.addr ≠ i.addr :=
    fun same => fresh i member ⟨j, older, same⟩
  refine ⟨fun before i after split => ?_, fun i member t' w' reported => ?_⟩
  · subst split
    have split : w.origInstructions = (old ++ before) ++ i :: after := by rw [listed, List.append_assoc]
    refine disasm_shows running opened split fun j earlier => ?_
    obtain older | here := List.mem_append.mp earlier
    · exact other (by simp) older
    · exact (List.pairwise_append.mp distinct).2.2 j here i List.mem_cons_self
  · obtain ⟨j, recorded, same, e, l, -, said⟩ := reported.said
    rw [listed] at recorded
    obtain older | here := List.mem_append.mp recorded
    · exact absurd same (other member older)
    · obtain rfl : j = i := by
        by_contra apart
        have symm : Std.Symm fun i j : Instruction1 => i.addr ≠ j.addr := ⟨fun _ _ ne => ne.symm⟩
        exact distinct.forall here member apart same
      exact ⟨e, l, said⟩

/-- The listings are those of the current program if and only if no earlier one has recorded
an address of it. -/
theorem listsOwn_iff (running : w.info.state = .running) (own : OwnCode host w old new) :
    ListsOwn host w new ↔ ∀ i ∈ new, ¬ Recorded old i.addr := by
  obtain ⟨listed, prog, found, decodes, none⟩ := own
  by_cases opened : host.csOpen = true
  · have distinct := (decodes opened).distinct
    exact ⟨fun shows => shows.fresh running opened listed distinct,
      listsOwn_of_fresh running opened listed distinct⟩
  · rw [none opened] at listed ⊢
    refine iff_of_true ⟨fun before i after split => ?_, fun i member => by cases member⟩ (by simp)
    exact absurd split.symm (List.append_ne_nil_of_right_ne_nil _ (List.cons_ne_nil _ _))

/-- After a command the current program has none of the addresses recorded before it exactly
if the command starts such a program, or none. -/
theorem Step.apart_iff {cmd : Command} (tidy : w.Tidy) (kept : w.info.state = .running →
    ∃ old new, OwnCode host w old new ∧ ∀ i ∈ new, ¬ Recorded old i.addr)
    (step : Step host cmd w w') (running : w'.info.state = .running) :
    ∃ old new, OwnCode host w' old new ∧
      ((∀ i ∈ new, ¬ Recorded old i.addr) ↔ Fresh host w cmd) := by
  obtain ⟨before, same⟩ | ⟨begins, loaded, n, v, ok, same⟩ := step.program tidy running
  · obtain ⟨old, new, own, apart⟩ := kept before
    refine ⟨old, new, own.congr same, iff_of_true apart fun _ loaded => ?_⟩
    rw [before] at loaded
    cases loaded
  · obtain ⟨new, own, path, entry, size⟩ := start_own loaded ok
    refine ⟨_, new, own.congr same, ?_⟩
    obtain ⟨-, prog, found, decodes, none⟩ := own
    rw [path] at found
    rw [entry, size] at decodes
    constructor
    · intro apart _ _ opened prog' new' found' decodes'
      obtain rfl := Option.some.inj (found.symm.trans found')
      obtain rfl := (decodes opened).unique decodes'
      exact apart
    · intro fresh
      by_cases opened : host.csOpen = true
      · exact fresh begins loaded opened prog new found (decodes opened)
      · simp [none opened]

/-- In every run in which each program that is started has none of the addresses recorded
before, the listings are those of the current program. The next command keeps this exactly
if it starts such a program, or none. -/
theorem lists_own {cs : List Command}
    (run : Run (fun cmd w w' => Step host cmd w w' ∧ Fresh host w cmd) cs (World.init host) w) :
    (w.info.state = .running → ∃ old new, OwnCode host w old new ∧ ListsOwn host w new) ∧
    ∀ cmd w', Step host cmd w w' → w'.info.state = .running → ∃ old new, OwnCode host w' old new ∧
      (ListsOwn host w' new ↔ Fresh host w cmd) := by
  have kept := run.invariant
    (I := fun w => w.Tidy ∧ (w.info.state = .running → ∃ old new, OwnCode host w old new ∧
      ∀ i ∈ new, ¬ Recorded old i.addr))
    (fun cmd v v' ⟨tidy, kept⟩ ⟨step, fresh⟩ => ⟨step.tidy tidy, fun running => by
      obtain ⟨old, new, own, exactly⟩ := step.apart_iff tidy kept running
      exact ⟨old, new, own, exactly.mpr fresh⟩⟩)
    ⟨World.init_tidy host, fun running => by cases running⟩
  obtain ⟨tidy, kept⟩ := kept
  refine ⟨fun running => ?_, fun cmd w' step running => ?_⟩
  · obtain ⟨old, new, own, apart⟩ := kept running
    exact ⟨old, new, own, (listsOwn_iff running own).mpr apart⟩
  · obtain ⟨old, new, own, exactly⟩ := step.apart_iff tidy kept running
    exact ⟨old, new, own, (listsOwn_iff running own).trans exactly⟩

end Listings

section Samples

open Sample

/-- `mov eax, 60` and `syscall`. -/
def leave : List Byte := [0xb8, 0x3c, 0x00, 0x00, 0x00, 0x0f, 0x05]

theorem lists_own_leave : ∃ w old new, Reachable (host leave) w ∧ w.info.state = .running ∧
    OwnCode (host leave) w old new ∧ ListsOwn (host leave) w new := by
  have summary : ((session (host leave) 40 [.load "leave"]).bind fun v =>
      (next? (host leave) 40 .start v).map fun w => (v.origInstructions.isEmpty, w.info.state)) =
      some (true, .running) := by
    decide +kernel
  obtain ⟨v, ended, rest⟩ := Option.bind_eq_some_iff.mp summary
  obtain ⟨w, begun, facts⟩ := Option.map_eq_some_iff.mp rest
  simp only [Prod.mk.injEq, List.isEmpty_iff] at facts
  obtain ⟨empty, running⟩ := facts
  have first : Run (fun cmd w w' => Step (host leave) cmd w w' ∧ Fresh (host leave) w cmd)
      [.load "leave"] (World.init (host leave)) v := by
    refine (run_of_session ended).mono fun cmd member w w' step => ⟨step, fun begins => ?_⟩
    rw [List.mem_singleton.mp member] at begins
    simp at begins
  have step : Step (host leave) .start v w := ⟨40, exec_of_next? begun⟩
  have fresh : Fresh (host leave) v .start := by
    intro _ _ _ _ _ _ _ i _ ⟨j, older, _⟩
    rw [empty] at older
    cases older
  obtain ⟨shows, -⟩ := lists_own (first.snoc ⟨step, fresh⟩)
  obtain ⟨old, new, own, lists⟩ := shows running
  exact ⟨w, old, new, ⟨_, (run_of_session ended).snoc step⟩, running, own, lists⟩

/-- When the program is loaded again, `disasm` goes on behind its last instruction with the
first one. -/
theorem disasm_overlaps : ∃ w old new, Reachable (host leave) w ∧ w.info.state = .running ∧
    OwnCode (host leave) w old new ∧ ¬ ListsOwn (host leave) w new := by
  have summary : ((session (host leave) 40 [.load "leave", .start, .cont, .load "leave"]).bind fun v =>
      (next? (host leave) 40 .start v).map fun w => (v.info.state, v.origInstructions.map (·.addr),
        w.info.state, w.origInstructions.map (·.addr))) =
      some (.loaded, [0x401ff9, 0x401ffe], .running, [0x401ff9, 0x401ffe, 0x401ff9, 0x401ffe]) := by
    decide +kernel
  obtain ⟨v, ended, rest⟩ := Option.bind_eq_some_iff.mp summary
  obtain ⟨w, begun, facts⟩ := Option.map_eq_some_iff.mp rest
  simp only [Prod.mk.injEq] at facts
  obtain ⟨loaded, before, running, after⟩ := facts
  have step : Step (host leave) .start v w := ⟨40, exec_of_next? begun⟩
  have begun : start (host leave) 40 v = .ok () w := exec_of_next? begun
  obtain ⟨new, own, -⟩ := start_own loaded begun
  refine ⟨w, _, new, ⟨_, (run_of_session ended).snoc step⟩, running, own, fun lists => ?_⟩
  have fresh := (listsOwn_iff running own).mp lists
  have addrs : new.map (·.addr) = [0x401ff9, 0x401ffe] := by
    rw [own.listed, List.map_append, before] at after
    have both : [0x401ff9, 0x401ffe] ++ new.map (·.addr) = [0x401ff9, 0x401ffe] ++ [0x401ff9, 0x401ffe] :=
      after
    exact List.append_cancel_left both
  have again {ins : List Instruction1} (listed : ins.map (·.addr) = [0x401ff9, 0x401ffe]) :
      Recorded ins 0x401ff9 := by
    have member : (0x401ff9 : Addr) ∈ ins.map (·.addr) := by
      rw [listed]
      exact List.mem_cons_self
    obtain ⟨i, inside, here⟩ := List.mem_map.mp member
    exact ⟨i, inside, here⟩
  obtain ⟨i, listed, here⟩ := again addrs
  exact fresh i listed (here ▸ again before)

end Samples

end UnixProgramming.Sdb
