import UnixProgramming.Sdb.History
import UnixProgramming.Sdb.Listing
import UnixProgramming.Sdb.Resumption

/-!
# The numbered table of breakpoints

`list` numbers the breakpoints and `delete` takes these numbers. Over a whole session the
table is a list of addresses that only `break` and `delete` change, each in its way, and
between two executions of the debuggee what they do to it depends on nothing but this table:
its memory is the original one with `int3` at the addresses in it.
-/

namespace UnixProgramming.Sdb

open Memory Transition Stateful

variable {κ : Type}

section Numbers

/-- The addresses in the table after a command. -/
def numbered (addrs : List Addr) : Command → List Addr
  | .break addr => if addr ∈ addrs then addrs else addrs ++ [addr]
  | .delete idx => addrs.eraseIdx (bpIndex idx)
  | _ => addrs

/-- What `list` prints for them. -/
def listed (addrs : List Addr) : List String :=
  if addrs = [] then ["** No breakpoint\n"]
  else addrs.zipIdx.map fun (addr, i) => " " ++ toString i ++ ": " ++ hex addr ++ "\n"

variable {host : Host κ} {w w' : World κ} {cmd : Command} {cs : List Command} {n : Nat}

theorem Continued.forks (went : Continued n w w') : w'.forks = w.forks := by
  rcases went with ⟨c, t, bp, -, -, -, landing⟩
  cases landing <;> rfl

theorem Outcome.forks_le (out : Outcome host w cmd w') : w.forks ≤ w'.forks := by
  cases out with
  | quiet same =>
    rw [same]
  | continued went | resumed went => exact went.forks.ge
  | started begun =>
    rcases begun with ⟨ins, l⟩
    exact Nat.le_succ _
  | ran _ begun went =>
    rw [went.forks]
    rcases begun with ⟨ins, l⟩
    exact Nat.le_succ _
  | _ => exact le_rfl

theorem forks_le_of_run (tidy : w.Tidy) (run : Run (Step host) cs w w') : w.forks ≤ w'.forks := by
  induction run with
  | nil => exact le_rfl
  | cons step _ ih => exact (step.outcome tidy).forks_le.trans (ih (step.tidy tidy))

theorem Continued.addrs (went : Continued n w w') (running : w'.info.state = .running) :
    w.info.state = .running ∧ w'.info.addrs = w.info.addrs := by
  rcases went with ⟨c, t, bp, -, before, -, landing⟩
  cases landing with
  | exited => cases running
  | hit | stop | signaled => exact ⟨before, rfl⟩

/-- A command that starts no program and ends in the `RUNNING` state was given in it, and
only `break` and `delete` have changed the table. -/
theorem Outcome.addrs (tidy : w.Tidy) (out : Outcome host w cmd w')
    (running : w'.info.state = .running) (same : w'.forks = w.forks) :
    w.info.state = .running ∧
      ((∀ addr, cmd ≠ .break addr) → (∀ idx, cmd ≠ .delete idx) → w'.info.addrs = w.info.addrs) := by
  cases out with
  | quiet log =>
    rw [log] at running ⊢
    exact ⟨running, fun _ _ => rfl⟩
  | planted l _ before => exact ⟨before, fun other => absurd rfl (other _)⟩
  | removed l stopped => exact ⟨(tidy.child _ stopped.child).2, fun _ other => absurd rfl (other _)⟩
  | register l _ before | stepped l _ before => exact ⟨before, fun _ _ => rfl⟩
  | continued went | resumed went =>
    rcases went.addrs running with ⟨before, addrs⟩
    exact ⟨before, fun _ _ => addrs⟩
  | loaded l _ loaded =>
    rw [loaded] at running
    cases running
  | started begun =>
    rcases begun with ⟨ins, l⟩
    exact absurd same (Nat.succ_ne_self _)
  | ran _ begun went =>
    rw [went.forks] at same
    rcases begun with ⟨ins, l⟩
    exact absurd same (Nat.succ_ne_self _)

theorem Step.numbered (tidy : w.Tidy) (step : Step host cmd w w')
    (running : w'.info.state = .running) (same : w'.forks = w.forks) :
    w.info.state = .running ∧ w'.info.addrs = numbered w.info.addrs cmd := by
  rcases (step.outcome tidy).addrs tidy running same with ⟨before, others⟩
  refine ⟨before, ?_⟩
  rcases step with ⟨n, ok⟩
  cases cmd with
  | «break» addr =>
    rcases setBp_ok tidy before ok with ⟨known, quiet⟩ | ⟨c, code, l, -, fresh, -, rfl⟩
    · rw [quiet, Sdb.numbered, if_pos known]
    · rw [Sdb.numbered, if_neg fresh]
      simp [ProgInfo.addrs]
  | delete idx =>
    have erased : Sdb.numbered w.info.addrs (.delete idx) =
        (w.info.bpVec.eraseIdx (bpIndex idx)).map Breakpoint.addr := List.eraseIdx_map ..
    rw [erased, ProgInfo.addrs]
    have out : Outcome host w (.delete idx) w' := delBp_outcome tidy ok
    cases found : w.info.bpVec[bpIndex idx]? with
    | none =>
      rw [List.eraseIdx_of_length_le (List.getElem?_eq_none_iff.mp found)]
      cases out with
      | quiet log => rw [log]
      | removed l stopped listed =>
        rw [found] at listed
        cases listed
    | some bp =>
      cases alive : w.child with
      | none =>
        rcases delBp_of_gone alive found with ⟨l, failed⟩
        rw [show exec host n (.delete idx) w = delBp idx w from rfl, failed] at ok
        cases ok
      | some c =>
        rcases delBp_eq (tidy.stopped alive) found with ⟨l, done⟩
        rw [show exec host n (.delete idx) w = delBp idx w from rfl, done] at ok
        by_cases readable : Readable c.tracee.mem bp.addr
        · rw [if_pos readable] at ok
          cases ok
          rfl
        · rw [if_neg readable] at ok
          cases ok
  | _ => exact others (fun _ => Command.noConfusion) fun _ => Command.noConfusion

/-- As long as no other program is started, the table is what the commands have made of it. -/
theorem addrs_of_run (tidy : w.Tidy) (run : Run (Step host) cs w w')
    (running : w'.info.state = .running) (same : w'.forks = w.forks) :
    w.info.state = .running ∧ w'.info.addrs = cs.foldl numbered w.info.addrs := by
  induction run with
  | nil => exact ⟨running, rfl⟩
  | @cons cmd cs w v w' step rest ih =>
    have first := (step.outcome tidy).forks_le
    have later := forks_le_of_run (step.tidy tidy) rest
    rcases ih (step.tidy tidy) running (by omega) with ⟨between, folded⟩
    rcases step.numbered tidy between (by omega) with ⟨before, one⟩
    rw [one] at folded
    exact ⟨before, folded⟩

end Numbers

section Numbering

variable {host : Host κ} {w w' : World κ} {cs : List Command}

theorem Reachable.distinct (reach : Reachable host w) : w.info.addrs.Nodup := by
  rcases reach with ⟨cs, run⟩
  have both : w.Tidy ∧ w.info.addrs.Nodup := by
    refine run.invariant (I := fun w => w.Tidy ∧ w.info.addrs.Nodup)
      (fun cmd w w' before step => ?_) ⟨World.init_tidy host, List.nodup_nil⟩
    exact ⟨step.tidy before.1, ((step.outcome before.1).listing before.1).distinct before.2⟩
  exact both.2

theorem list_shows (w : World κ) : Shows host .list w (listed w.info.addrs) := by
  by_cases none : w.info.bpVec = []
  · refine Shows.of_log (n := 0) w.log ?_ rfl
    simp [exec, listBp, none, listed, ProgInfo.addrs, stderr, emit]
  · refine Shows.of_log (n := 0) w.log ?_ rfl
    have empty : w.info.bpVec.isEmpty = false := by simpa using none
    simp only [exec, listBp, bind_apply, get_apply, empty, Bool.false_eq_true, if_false, forIn_stderr,
      pure_apply, listed, ProgInfo.addrs, List.map_eq_nil_iff, none, List.zipIdx_map, List.map_map]
    rfl

theorem row_inj {i : Nat} {a b : Addr}
    (same : " " ++ toString i ++ ": " ++ hex a ++ "\n" = " " ++ toString i ++ ": " ++ hex b ++ "\n") :
    a = b := by
  have texts := congrArg String.toList same
  simp only [String.toList_append] at texts
  exact hex_inj.mp (String.toList_injective (List.append_cancel_left (List.append_cancel_right texts)))

/-- The text tells the table. -/
theorem listed_inj {as bs : List Addr} : listed as = listed bs ↔ as = bs := by
  refine ⟨fun same => ?_, congrArg listed⟩
  have rows (k : Nat) : (as.zipIdx k).map (fun (addr, i) => " " ++ toString i ++ ": " ++ hex addr ++ "\n") =
      (bs.zipIdx k).map (fun (addr, i) => " " ++ toString i ++ ": " ++ hex addr ++ "\n") → as = bs := by
    clear same
    induction as generalizing bs k with
    | nil =>
      intro same
      cases bs with
      | nil => rfl
      | cons b bs => cases same
    | cons a as ih =>
      intro same
      cases bs with
      | nil => cases same
      | cons b bs =>
        rcases List.cons.inj same with ⟨first, rest⟩
        rw [row_inj first, ih (k + 1) rest]
  have other (c : Addr) (cs : List Addr) : listed [] ≠ listed (c :: cs) := by
    intro same
    have texts := congrArg String.toList (List.cons.inj same).1
    simp only [String.toList_append] at texts
    exact absurd (List.cons.inj texts).1 (by decide)
  cases as with
  | nil =>
    cases bs with
    | nil => rfl
    | cons b bs => exact absurd same (other b bs)
  | cons a as =>
    cases bs with
    | nil => exact absurd same.symm (other a as)
    | cons b bs => exact rows 0 same

/-- While one program is debugged, whatever else is done to it, `list` shows exactly the
addresses that the commands have left in the table, under the numbers that `delete` takes,
and none of them twice. -/
theorem list_numbered (reach : Reachable host w) (run : Run (Step host) cs w w')
    (running : w'.info.state = .running) (same : w'.forks = w.forks) :
    (cs.foldl numbered w.info.addrs).Nodup ∧
    ∀ as, Shows host .list w' (listed as) ↔ as = cs.foldl numbered w.info.addrs := by
  have table := (addrs_of_run reach.tidy run running same).2
  have reach' : Reachable host w' := by
    rcases reach with ⟨past, before⟩
    exact ⟨past ++ cs, before.append run⟩
  rw [← table]
  refine ⟨reach'.distinct, fun as => ⟨fun shown => ?_, ?_⟩⟩
  · exact listed_inj.mp (shown.unique (list_shows w'))
  · rintro rfl
    exact list_shows w'

end Numbering

section Edits

/-- The commands that only look, and those that edit the table. -/
def Command.edits : Command → Bool
  | .break _ | .delete _ => true
  | cmd => cmd.observes

/-- The memory of the debuggee with what the table has in the place of its breakpoints. -/
def World.original (w : World κ) (c : Child κ) (x : Addr) : Option Byte :=
  match w.info.bpVec.find? fun bp => bp.addr = x with
  | some bp => some bp.origPatch
  | none => c.tracee.mem x

/-- A memory with `int3` at the addresses. -/
def armed (mem : Addr → Option Byte) (addrs : List Addr) (x : Addr) : Option Byte :=
  if x ∈ addrs then some int3 else mem x

def Child.withMem (c : Child κ) (mem : Addr → Option Byte) : Child κ :=
  { c with tracee := { c.tracee with mem := mem } }

/-- What holds between two edits of the debuggee `c` with the memory `mem` of its own. -/
structure Edited (mem : Addr → Option Byte) (c : Child κ) (forks : Nat) (w : World κ) : Prop where
  tidy : w.Tidy
  distinct : w.info.addrs.Nodup
  saved : ∀ bp ∈ w.info.bpVec, mem bp.addr = some bp.origPatch
  child : w.child = some (c.withMem (armed mem w.info.addrs))
  forks : w.forks = forks

variable {host : Host κ} {w w' : World κ} {c : Child κ} {mem : Addr → Option Byte} {k : Nat}
  {cmd : Command} {cs : List Command}

theorem patched_armed (mem : Addr → Option Byte) (addrs : List Addr) :
    Patched Set.univ mem addrs (armed mem addrs) := fun _ _ => rfl

theorem eq_armed {mem' : Addr → Option Byte} {addrs : List Addr}
    (patched : Patched Set.univ mem addrs mem') : mem' = armed mem addrs :=
  funext fun x => patched x trivial

theorem Edited.step (h : Edited mem c k w) (step : Step host cmd w w') (edits : cmd.edits = true) :
    Edited mem c k w' := by
  have out := step.outcome h.tidy
  have distinct := (out.listing h.tidy).distinct h.distinct
  have tidy := step.tidy h.tidy
  cases out with
  | quiet same =>
    rw [same] at tidy distinct ⊢
    exact ⟨tidy, distinct, h.saved, h.child, h.forks⟩
  | @planted _ addr code l stopped _ fresh read =>
    obtain rfl := Option.some.inj (stopped.child.symm.trans h.child)
    have held : armed mem w.info.addrs addr = some (byte code 0) := low_of_peek read
    rw [armed, if_neg fresh] at held
    have more : ProgInfo.addrs { w.info with bpVec := w.info.bpVec ++ [⟨addr, byte code 0⟩] } =
        w.info.addrs ++ [addr] := by simp [ProgInfo.addrs]
    refine ⟨tidy, distinct, fun bp listed => ?_, ?_, h.forks⟩
    · rcases List.mem_append.mp listed with old | new
      · exact h.saved bp old
      · obtain rfl := List.mem_singleton.mp new
        exact held
    · rw [more, ← eq_armed (patched_armed mem w.info.addrs).arm]
      rfl
  | @removed _ idx bp l stopped found readable =>
    obtain rfl := Option.some.inj (stopped.child.symm.trans h.child)
    have split := addrs_eraseIdx h.distinct found
    have back := (patched_armed mem w.info.addrs).disarm
      (fun _ => h.saved bp (List.mem_of_getElem? found)) split
    refine ⟨tidy, distinct, fun bp' kept => h.saved bp' (List.mem_of_mem_eraseIdx kept), ?_, h.forks⟩
    change some _ = some (c.withMem (armed mem ((w.info.bpVec.eraseIdx (bpIndex idx)).map Breakpoint.addr)))
    rw [← eq_armed back]
    rfl
  | _ => cases edits

theorem original_of_mem {bp : Breakpoint} (distinct : w.info.addrs.Nodup) (listed : bp ∈ w.info.bpVec) :
    w.original c bp.addr = some bp.origPatch := by
  unfold World.original
  cases found : w.info.bpVec.find? fun bp' => bp'.addr = bp.addr with
  | none =>
    have other := List.find?_eq_none.mp found bp listed
    simp at other
  | some bp' =>
    have same : bp'.addr = bp.addr := by simpa using List.find?_some found
    rw [eq_of_addr distinct (List.mem_of_find?_eq_some found) listed same]

theorem original_of_notMem {x : Addr} (unlisted : x ∉ w.info.addrs) :
    w.original c x = c.tracee.mem x := by
  have none : (w.info.bpVec.find? fun bp => bp.addr = x) = none := by
    refine List.find?_eq_none.mpr fun bp listed => ?_
    have other : bp.addr ≠ x := by
      rintro rfl
      exact unlisted (mem_addrs listed)
    simpa using other
  rw [World.original, none]

theorem Edited.refl (tidy : w.Tidy) (distinct : w.info.addrs.Nodup) (alive : w.child = some c)
    (planted : ∀ a ∈ w.info.addrs, c.tracee.mem a = some int3) :
    Edited (w.original c) c w.forks w := by
  refine ⟨tidy, distinct, fun bp => original_of_mem distinct, ?_, rfl⟩
  have same : armed (w.original c) w.info.addrs = c.tracee.mem := by
    funext x
    by_cases listed : x ∈ w.info.addrs
    · rw [armed, if_pos listed, planted x listed]
    · rw [armed, if_neg listed, original_of_notMem listed]
  rw [alive, same]
  rfl

/-- However breakpoints are set and deleted between two executions, in between looking at
what is there: the debuggee keeps its registers and the rest of its state, and its memory is
the original one with `int3` at the addresses in the table, which are those that the commands
have left in it. The bytes of the table are the original ones. -/
theorem edits_leave (reach : Reachable host w) (alive : w.child = some c)
    (planted : ∀ a ∈ w.info.addrs, c.tracee.mem a = some int3) (run : Run (Step host) cs w w')
    (edits : ∀ cmd ∈ cs, cmd.edits = true) :
    w'.info.addrs = cs.foldl numbered w.info.addrs ∧
    w'.child = some (c.withMem (armed (w.original c) (cs.foldl numbered w.info.addrs))) ∧
    ∀ bp ∈ w'.info.bpVec, w.original c bp.addr = some bp.origPatch := by
  have now : Edited (w.original c) c w.forks w' := run.invariant_on
    (fun cmd listed _ _ before step => before.step step (edits cmd listed))
    (.refl reach.tidy reach.distinct alive planted)
  have running := (now.tidy.child _ now.child).2
  have table := (addrs_of_run reach.tidy run running now.forks).2
  exact ⟨table, table ▸ now.child, now.saved⟩

end Edits

section Samples

open Sample

theorem start_of_sample {text : List Byte} {path : String} {cs : List Command} {w' : World Unit}
    (run : Run (Step (host text)) (.load path :: .start :: cs) (World.init (host text)) w') :
    ∃ w c, Reachable (host text) w ∧ w.info.addrs = [] ∧ w.child = some c ∧ c.tracee = image text ∧
      0 < w.forks ∧ Run (Step (host text)) cs w w' := by
  rcases run_start run with ⟨v, w, c, reach, loaded, start, -, born, -, untouched, rest⟩
  have reach' : Reachable (host text) w := by
    rcases reach with ⟨past, before⟩
    exact ⟨past ++ [.start], before.append (.single start)⟩
  rcases start with ⟨n, ok⟩
  have came_back : Sdb.start (host text) n v = .ok () w := ok
  rcases start_ok came_back with ⟨idle, -⟩ | begun
  · exact absurd loaded idle
  have unset := begun.unlisted reach.tidy
  have one : 0 < w.forks := by
    rcases begun with ⟨ins, l⟩
    exact Nat.succ_pos _
  exact ⟨w, c, reach', unset, born, untouched, one, rest⟩

/-- Three breakpoints, of which the second is deleted while the program runs. -/
theorem list_numbered_fill : ∃ w : World Unit, Reachable (host fill) w ∧
    ∀ as, Shows (host fill) .list w (listed as) ↔ as = [0x401ffd, 0x401ffe] := by
  have summary : (session (host fill) 40 [.load "fill", .start, .break 0x401ffd, .break 0x401ff8,
      .break 0x401ffe, .cont, .si, .delete 1, .cont]).map (fun w => (w.info.state, w.forks)) =
        some (.running, 1) := by
    decide +kernel
  rcases Option.map_eq_some_iff.mp summary with ⟨w', ended, same⟩
  rcases Prod.mk.inj same with ⟨running, forks⟩
  rcases start_of_sample (run_of_session ended) with ⟨w, c, reach, unset, -, -, one, run⟩
  have same : w'.forks = w.forks := by
    have fewer := forks_le_of_run reach.tidy run
    omega
  have shown := (list_numbered reach run running same).2
  rw [unset] at shown
  exact ⟨w', ⟨_, run_of_session ended⟩, shown⟩

/-- Two breakpoints, and the first deleted again: only the second is in memory. -/
theorem edits_leave_fill : ∃ (w : World Unit) (c : Child Unit), w.child = some c ∧
    c.tracee.mem 0x401ff8 = some int3 ∧ c.tracee.mem 0x401ffd = (image fill).mem 0x401ffd := by
  have ended : (session (host fill) 40 [.load "fill", .start, .break 0x401ffd, .list, .break 0x401ff8,
      .delete 0]).isSome := by
    decide +kernel
  rcases Option.isSome_iff_exists.mp ended with ⟨w', ended⟩
  rcases start_of_sample (run_of_session ended) with ⟨w, c, reach, unset, alive, untouched, -, run⟩
  have none : ∀ a, a ∉ w.info.addrs := by simp [unset]
  rcases edits_leave reach alive (fun a listed => absurd listed (none a)) run
    (by simp [Command.edits, Command.observes]) with ⟨-, child, -⟩
  rw [unset] at child
  refine ⟨w', _, child, rfl, ?_⟩
  rw [← untouched]
  exact original_of_notMem (none _)

end Samples

end UnixProgramming.Sdb
