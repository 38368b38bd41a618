import UnixProgramming.Foundation.Transition
import UnixProgramming.Libmini.Signal

/-!
# Previous dispositions

A program makes any sequence of calls of `signal` and `sigaction`, each in a frame of
its own, and does what it likes in between except changing a signal action. Next to it
goes a record of what the last installing call has put in for each signal.

`sigaction` never writes through `oact`, so what a call reports is what the place for it
held before; and without `act` it installs what its frame holds.
-/

namespace UnixProgramming.Libmini

open Memory Transition

inductive Call where
  | signal (f : SignalFrame) (signum : Int) (handler : Word)
  | sigaction (f : SigactionFrame) (signum : Int) (act old : Addr)
  /-- what the program does in between -/
  | rest

/-- A program, and what the most recent installing call has put in for each signal. -/
structure Recorded where
  lib : Lib
  last : Int → Action

variable (sysSigreturn : Word)

namespace Recorded

def start (c : Lib) : Recorded := ⟨c, c.proc.actions⟩

/-- After a call that installs an action of `signum`. -/
def install (r : Recorded) (signum : Int) (c : Lib) : Recorded :=
  ⟨c, Function.update r.last signum (c.proc.actions signum)⟩

end Recorded

/-- The calls are on valid signals, with pointers that are null or to structures of the
program. -/
inductive Step : Call → Recorded → Recorded → Prop where
  | setHandler {f signum handler r} (settable : Settable signum) :
    Step (.signal f signum handler) r (r.install signum (signal sysSigreturn f signum handler r.lib).2)
  | setAction {f signum act old r} (settable : Settable signum) (from_act : f.Passed act)
    (to_old : old = 0 ∨ f.Passed old) :
    Step (.sigaction f signum act old) r
      (r.install signum (sigaction sysSigreturn f signum act old r.lib).2)
  | getAction {f signum old r} (settable : Settable signum) (to_old : old = 0 ∨ f.Passed old) :
    Step (.sigaction f signum 0 old) r ⟨(sigaction sysSigreturn f signum 0 old r.lib).2, r.last⟩
  | rest {r c} (kept : c.proc.actions = r.lib.proc.actions) : Step .rest r ⟨c, r.last⟩

/-- The structure at `old` has the handler, the flags and the mask of `act`. -/
structure Reported (m : Addr → BitVec 8) (old : Addr) (act : Action) : Prop where
  handler : load m (slot old 0) = act.handler
  flags : load m (slot old 1) = act.flags
  mask : load m (slot old 3) = act.mask

instance (m : Addr → BitVec 8) (old : Addr) (act : Action) : Decidable (Reported m old act) :=
  decidable_of_iff (load m (slot old 0) = act.handler ∧ load m (slot old 1) = act.flags ∧
      load m (slot old 3) = act.mask)
    ⟨fun ⟨handler, flags, mask⟩ => ⟨handler, flags, mask⟩,
      fun ⟨handler, flags, mask⟩ => ⟨handler, flags, mask⟩⟩

/-- What a call may write apart from the stack and `errno`. -/
def writable (old : Addr) : Set Addr := if old = 0 then ∅ else window old 32

/-- The call reports what was put in last, installs nothing without an action, and writes
nothing else. -/
def Honours (r : Recorded) : Call → Prop
  | .signal f signum handler =>
    let (ret, c) := signal sysSigreturn f signum handler r.lib
    ret = (r.last signum).handler ∧ Set.EqOn c.mem r.lib.mem (f.stack ∪ f.callee.stack)ᶜ
  | .sigaction f signum act old =>
    let (_, c) := sigaction sysSigreturn f signum act old r.lib
    (old ≠ 0 → Reported c.mem old (r.last signum)) ∧
      (act = 0 → c.proc.actions = r.lib.proc.actions) ∧
        Set.EqOn c.mem r.lib.mem (f.stack ∪ writable old)ᶜ
  | .rest => True

/-- The places that the call should have filled hold the right values already. -/
def Lucky (r : Recorded) : Call → Prop
  | .signal f signum _ => load r.lib.mem (slot f.oact 0) = (r.last signum).handler
  | .sigaction f signum act old =>
    (old = 0 ∨ Reported r.lib.mem old (r.last signum)) ∧
      (act = 0 → loadAction r.lib.mem f.kact = r.last signum)
  | .rest => True

instance (r : Recorded) (call : Call) : Decidable (Lucky r call) :=
  match call with
  | .signal _ _ _ => inferInstanceAs (Decidable (_ = _))
  | .sigaction _ _ _ _ => inferInstanceAs (Decidable (_ ∧ (_ → _)))
  | .rest => inferInstanceAs (Decidable True)

section Runs

variable {sysSigreturn : Word} {call : Call} {r r' : Recorded}

/-- `sigaction` changes no memory of its caller's. -/
theorem reported_iff {f : SigactionFrame} {old : Addr} {act : Action} {m m' : Addr → BitVec 8}
    (to_old : old = 0 ∨ f.Passed old) (kept : Set.EqOn m' m f.stackᶜ) :
    (old ≠ 0 → Reported m' old act) ↔ old = 0 ∨ Reported m old act := by
  obtain rfl | passed := to_old
  · simp
  · have word {i : Nat} (hi : i < 4) : load m' (slot old i) = load m (slot old i) := passed.load hi kept
    have same : Reported m' old act ↔ Reported m old act := by
      constructor <;> rintro ⟨handler, flags, mask⟩
      · exact ⟨(word (by decide)).symm.trans handler, (word (by decide)).symm.trans flags,
          (word (by decide)).symm.trans mask⟩
      · exact ⟨(word (by decide)).trans handler, (word (by decide)).trans flags,
          (word (by decide)).trans mask⟩
    rw [same, ← or_iff_not_imp_left]

/-- With a true record, a call does what it should exactly if it is lucky. -/
theorem honours_iff (known : r.last = r.lib.proc.actions) (step : Step sysSigreturn call r r') :
    Honours sysSigreturn r call ↔ Lucky r call := by
  have widen {S T : Set Addr} {m m' : Addr → BitVec 8} (kept : Set.EqOn m' m Sᶜ) :
      Set.EqOn m' m (S ∪ T)ᶜ := kept.mono (Set.compl_subset_compl.mpr Set.subset_union_left)
  cases step with
  | @setHandler f signum handler _ settable =>
    have effect := signal_effect sysSigreturn f handler r.lib settable
    simp only [Honours, Lucky]
    rw [effect.ret]
    exact and_iff_left effect.mem
  | @setAction f signum act old _ settable from_act to_old =>
    have effect := sigaction_given sysSigreturn old r.lib settable from_act
    simp only [Honours, Lucky, reported_iff to_old effect.mem, from_act.nonnull, false_imp_iff, true_and,
      and_true]
    exact and_iff_left (widen effect.mem)
  | @getAction f signum old _ settable to_old =>
    have effect := sigaction_null sysSigreturn f old r.lib settable
    have actions : (sigaction sysSigreturn f signum 0 old r.lib).2.proc.actions = r.lib.proc.actions ↔
        loadAction r.lib.mem f.kact = r.last signum := by
      rw [effect.actions, Function.update_eq_self_iff, known]
    simp only [Honours, Lucky, reported_iff to_old effect.mem, true_imp_iff, actions]
    exact and_congr_right fun _ => and_iff_left (widen effect.mem)
  | rest => exact Iff.rfl

theorem Recorded.install_known {signum : Int} {new : Action} {c : Lib} (known : r.last = r.lib.proc.actions)
    (installed : c.proc.actions = Function.update r.lib.proc.actions signum new) :
    (r.install signum c).last = (r.install signum c).lib.proc.actions := by
  simp only [install, installed, known, Function.update_self]

/-- A lucky call keeps the record true. -/
theorem Step.known (known : r.last = r.lib.proc.actions) (step : Step sysSigreturn call r r')
    (lucky : Lucky r call) : r'.last = r'.lib.proc.actions := by
  cases step with
  | setHandler settable =>
    exact Recorded.install_known known (signal_effect sysSigreturn _ _ r.lib settable).actions
  | @setAction f signum act old _ settable from_act =>
    exact Recorded.install_known known (sigaction_given sysSigreturn old r.lib settable from_act).actions
  | @getAction f signum old _ settable =>
    change r.last = _
    rw [(sigaction_null sysSigreturn f old r.lib settable).actions, lucky.2 rfl, known,
      Function.update_eq_self]
  | rest kept => exact known.trans kept.symm

/-- In a run of lucky calls every call does what it should, and the next call will exactly
if it is lucky too. -/
theorem dispositions_reported {c : Lib} {calls : List Call}
    (run : Run (fun call r r' => Step sysSigreturn call r r' ∧ Lucky r call) calls (.start c) r) :
    Run (fun call r r' => Step sysSigreturn call r r' ∧ Honours sysSigreturn r call) calls (.start c) r ∧
      ∀ call r', Step sysSigreturn call r r' → (Honours sysSigreturn r call ↔ Lucky r call) := by
  let Known (r : Recorded) : Prop := r.last = r.lib.proc.actions
  have keep (call : Call) (r r' : Recorded) (known : Known r)
      (lucky : Step sysSigreturn call r r' ∧ Lucky r call) : Known r' := lucky.1.known known lucky.2
  refine ⟨run.upgrade (I := Known) (fun call r r' known lucky => ?_) rfl, fun call r' step => ?_⟩
  · exact ⟨keep call r r' known lucky, lucky.1, (honours_iff known lucky.1).mpr lucky.2⟩
  · exact honours_iff (run.invariant (I := Known) keep rfl) step

/-- The first call of `signal` for `SIGALRM`. -/
def alarmSet : Recorded :=
  let r := Recorded.start (idle ⟨0, 0, 0, 0⟩)
  r.install 14 (signal 0x402000 highFrame 14 0x401000 r.lib).2

theorem alarmSet_step :
    Step 0x402000 (.signal highFrame 14 0x401000) (.start (idle ⟨0, 0, 0, 0⟩)) alarmSet :=
  .setHandler (by decide)

theorem dispositions_reported_alarm :
    Honours 0x402000 alarmSet (.sigaction lowFrame 14 0x9000 0) ↔
      Lucky alarmSet (.sigaction lowFrame 14 0x9000 0) :=
  (dispositions_reported (.cons ⟨alarmSet_step, by decide +kernel⟩ .nil)).2 _ _
    (.setAction (by decide) lowFrame_passed (.inl rfl))

/-- The second call of `signal` returns what `oact` holds, not the handler. -/
theorem signal_forgets_handler :
    ∃ r, Run (Step 0x402000) [.signal highFrame 14 0x401000] (.start (idle ⟨0, 0, 0, 0⟩)) r ∧
      ¬ Honours 0x402000 r (.signal highFrame 14 1) := by
  refine ⟨alarmSet, .cons alarmSet_step .nil, fun honest => ?_⟩
  have known : alarmSet.last = alarmSet.lib.proc.actions :=
    alarmSet_step.known rfl (by decide +kernel)
  have lucky := (honours_iff known (.setHandler (by decide))).mp honest
  exact absurd lucky (by decide +kernel)

end Runs

end UnixProgramming.Libmini
