import Mathlib.Data.Finset.Insert
import Mathlib.Data.Finset.Range
import Mathlib.Data.Finset.Image
import UnixProgramming.Libmini.Kernel

/-!
# Signal sets

A `sigset_t` is one word with a bit for each signal. A shift by 64 or more has no
meaning in C and gives nothing here. The operations on the word are those on finite
sets of signals.
-/

namespace UnixProgramming.Libmini

section Operations

def shiftLeft? (x count : Word) : Option Word :=
  if count.toNat < 64 then some (x <<< count.toNat) else none

def shiftRight? (x count : Word) : Option Word :=
  if count.toNat < 64 then some (x >>> count.toNat) else none

/-- The conversion of `signo - 1` to `unsigned long`. -/
def sigIndex (signo : Int) : Word := BitVec.ofInt 64 (signo - 1)

def sigemptyset (_ : Word) : Int × Word := (0, 0)

def sigfillset (_ : Word) : Int × Word := (0, -1)

def sigaddset (set : Word) (signo : Int) : Option (Int × Word) :=
  if signo < 1 ∨ signo > 64 then
    some (-22, set)
  else
    (shiftLeft? 1 (sigIndex signo)).map fun bit => (0, set ||| bit)

def sigdelset (set : Word) (signo : Int) : Option (Int × Word) :=
  (shiftLeft? 1 (sigIndex signo)).map fun bit => (0, set &&& ~~~bit)

def sigismember (set : Word) (signo : Int) : Option Int :=
  (shiftRight? set (sigIndex signo)).map fun bits => ((1 &&& bits).setWidth 32).toInt

end Operations

/-- The signals that there are. -/
def Signo (signo : Int) : Prop := 1 ≤ signo ∧ signo ≤ 64

def signals : Finset Int := (Finset.range 64).image fun k : Nat => (k : Int) + 1

theorem mem_signals {signo : Int} : signo ∈ signals ↔ Signo signo := by
  rw [signals, Finset.mem_image]
  constructor
  · rintro ⟨k, bound, rfl⟩
    have := Finset.mem_range.mp bound
    exact ⟨by omega, by omega⟩
  · rintro ⟨low, high⟩
    exact ⟨(signo - 1).toNat, Finset.mem_range.mpr (by omega), by omega⟩

/-- A call on a signal set. -/
inductive SigsetCall where
  | empty
  | fill
  | add (signo : Int)
  | del (signo : Int)

namespace SigsetCall

def Valid : SigsetCall → Prop
  | .empty | .fill => True
  | .add signo | .del signo => Signo signo

/-- The call on the word. -/
def exec (set : Word) : SigsetCall → Option Word
  | .empty => some (sigemptyset set).2
  | .fill => some (sigfillset set).2
  | .add signo => (sigaddset set signo).map Prod.snd
  | .del signo => (sigdelset set signo).map Prod.snd

/-- The same on a finite set. -/
def build (S : Finset Int) : SigsetCall → Finset Int
  | .empty => ∅
  | .fill => signals
  | .add signo => insert signo S
  | .del signo => S.erase signo

end SigsetCall

section Representation

variable {set : Word} {S : Finset Int} {signo s : Int}

/-- The word has exactly the bits of the signals in the set. -/
def Represents (set : Word) (S : Finset Int) : Prop :=
  ∀ s, Signo s → set.getLsbD (s - 1).toNat = decide (s ∈ S)

theorem Signo.index_lt (h : Signo s) : (s - 1).toNat < 64 := by
  obtain ⟨low, high⟩ := h
  omega

theorem Signo.index_inj (h : Signo signo) (hs : Signo s) :
    (signo - 1).toNat = (s - 1).toNat ↔ s = signo := by
  obtain ⟨low, high⟩ := h
  obtain ⟨low', high'⟩ := hs
  omega

theorem toNat_sigIndex (h : Signo signo) : (sigIndex signo).toNat = (signo - 1).toNat := by
  have bound := h.index_lt
  obtain ⟨low, high⟩ := h
  rw [sigIndex, BitVec.toNat_ofInt]
  omega

theorem one_and_shiftRight (k : Nat) : 1 &&& set >>> k = if set.getLsbD k then 1#64 else 0#64 := by
  apply BitVec.eq_of_getLsbD_eq
  intro i hi
  cases i with
  | zero => cases bit : set.getLsbD k <;> simp [bit]
  | succ i => cases set.getLsbD k <;> simp [BitVec.getLsbD_one]

theorem sigismember_eq (h : Signo s) :
    sigismember set s = some (if set.getLsbD (s - 1).toNat then 1 else 0) := by
  have shifted : shiftRight? set (sigIndex s) = some (set >>> (s - 1).toNat) := by
    rw [shiftRight?, toNat_sigIndex h, if_pos h.index_lt]
  rw [sigismember, shifted, Option.map_some, one_and_shiftRight]
  cases set.getLsbD (s - 1).toNat <;> rfl

theorem sigBit_eq (h : Signo signo) :
    shiftLeft? 1 (sigIndex signo) = some (BitVec.twoPow 64 (signo - 1).toNat) := by
  rw [shiftLeft?, toNat_sigIndex h, if_pos h.index_lt, BitVec.twoPow_eq]
  rfl

theorem sigaddset_eq (h : Signo signo) :
    sigaddset set signo = some (0, set ||| BitVec.twoPow 64 (signo - 1).toNat) := by
  have valid : ¬ (signo < 1 ∨ signo > 64) := by
    obtain ⟨low, high⟩ := h
    omega
  rw [sigaddset, if_neg valid, sigBit_eq h, Option.map_some]

theorem sigdelset_eq (h : Signo signo) :
    sigdelset set signo = some (0, set &&& ~~~BitVec.twoPow 64 (signo - 1).toNat) := by
  rw [sigdelset, sigBit_eq h, Option.map_some]

theorem twoPow_bit (h : Signo signo) (hs : Signo s) :
    (BitVec.twoPow 64 (signo - 1).toNat).getLsbD (s - 1).toNat = decide (s = signo) := by
  rw [BitVec.getLsbD_twoPow, decide_eq_true h.index_lt, Bool.true_and]
  exact decide_eq_decide.mpr (h.index_inj hs)

theorem add_bit (h : Signo signo) (hs : Signo s) :
    (set ||| BitVec.twoPow 64 (signo - 1).toNat).getLsbD (s - 1).toNat =
      (set.getLsbD (s - 1).toNat || decide (s = signo)) := by
  rw [BitVec.getLsbD_or, twoPow_bit h hs]

theorem del_bit (h : Signo signo) (hs : Signo s) :
    (set &&& ~~~BitVec.twoPow 64 (signo - 1).toNat).getLsbD (s - 1).toNat =
      (set.getLsbD (s - 1).toNat && decide (s ≠ signo)) := by
  rw [BitVec.getLsbD_and, BitVec.getLsbD_not, twoPow_bit h hs, decide_eq_true hs.index_lt,
    Bool.true_and, decide_not]

/-- One call: the word goes on representing the set. -/
theorem Represents.exec (rep : Represents set S) (call : SigsetCall) (valid : call.Valid) :
    ∃ set', call.exec set = some set' ∧ Represents set' (call.build S) := by
  cases call with
  | empty =>
    refine ⟨0, rfl, ?_⟩
    intro s _
    simp [SigsetCall.build]
  | fill =>
    refine ⟨-1, rfl, ?_⟩
    intro s hs
    change (-1#64).getLsbD (s - 1).toNat = decide (s ∈ signals)
    rw [BitVec.neg_one_eq_allOnes, BitVec.getLsbD_allOnes, decide_eq_true hs.index_lt,
      decide_eq_true (mem_signals.mpr hs)]
  | add signo =>
    refine ⟨_, by rw [SigsetCall.exec, sigaddset_eq valid, Option.map_some], ?_⟩
    intro s hs
    rw [add_bit valid hs, rep s hs]
    simp [SigsetCall.build, Bool.or_comm]
  | del signo =>
    refine ⟨_, by rw [SigsetCall.exec, sigdelset_eq valid, Option.map_some], ?_⟩
    intro s hs
    rw [del_bit valid hs, rep s hs]
    simp [SigsetCall.build, Bool.and_comm]

/-- A sequence of calls. -/
theorem Represents.execAll {calls : List SigsetCall} (rep : Represents set S)
    (valid : ∀ call ∈ calls, call.Valid) :
    ∃ set', calls.foldlM SigsetCall.exec set = some set' ∧
      Represents set' (calls.foldl SigsetCall.build S) := by
  induction calls generalizing set S with
  | nil => exact ⟨set, rfl, rep⟩
  | cons call calls ih =>
    obtain ⟨next, ran, rep'⟩ := rep.exec call (valid call List.mem_cons_self)
    obtain ⟨set', rest, rep''⟩ := ih rep' fun c listed => valid c (List.mem_cons_of_mem _ listed)
    refine ⟨set', ?_, rep''⟩
    rw [List.foldlM_cons, ran]
    exact rest

theorem Represents.ismember (rep : Represents set S) (hs : Signo s) :
    sigismember set s = some (if s ∈ S then 1 else 0) := by
  rw [sigismember_eq hs, rep s hs]
  simp

/-- The first call makes the word represent what it builds, whatever was in it. -/
theorem represents_first {first : SigsetCall} (starts : first = .empty ∨ first = .fill) (junk : Word) :
    ∃ set', first.exec junk = some set' ∧ Represents set' (first.build ∅) := by
  have nothing : Represents 0 ∅ := fun s _ => by simp
  obtain rfl | rfl := starts
  · exact nothing.exec .empty trivial
  · exact nothing.exec .fill trivial

/-- After any calls on valid signals, starting from `sigemptyset` or `sigfillset`, the
members are those of the finite set that the calls build; and one call on a signal
leaves the membership of the others alone. -/
theorem sigset_refines (first : SigsetCall) (calls : List SigsetCall)
    (starts : first = .empty ∨ first = .fill) (valid : ∀ call ∈ calls, call.Valid) (junk : Word) :
    (∃ set, (first :: calls).foldlM SigsetCall.exec junk = some set ∧
      ∀ s, Signo s → sigismember set s =
        some (if s ∈ (first :: calls).foldl SigsetCall.build ∅ then 1 else 0)) ∧
    ∀ set set' signo s, Signo signo → Signo s → s ≠ signo →
      SigsetCall.exec set (.add signo) = some set' ∨ SigsetCall.exec set (.del signo) = some set' →
      sigismember set' s = sigismember set s := by
  constructor
  · obtain ⟨next, ran, rep⟩ := represents_first starts junk
    obtain ⟨set, rest, rep'⟩ := rep.execAll valid
    refine ⟨set, ?_, ?_⟩
    · rw [List.foldlM_cons, ran]
      exact rest
    · intro s hs
      exact rep'.ismember hs
  · intro set set' signo s valid hs other call
    rcases call with added | deleted
    · rw [SigsetCall.exec, sigaddset_eq valid] at added
      obtain rfl := Option.some.inj added
      rw [sigismember_eq hs, sigismember_eq hs, add_bit valid hs]
      simp [other]
    · rw [SigsetCall.exec, sigdelset_eq valid] at deleted
      obtain rfl := Option.some.inj deleted
      rw [sigismember_eq hs, sigismember_eq hs, del_bit valid hs]
      simp [other]

theorem sigset_refines_alarm :
    ∃ set, [SigsetCall.empty, .add 14, .add 64, .del 14].foldlM SigsetCall.exec 7 = some set ∧
      ∀ s, Signo s → sigismember set s = some (if s ∈ ({64} : Finset Int) then 1 else 0) :=
  (sigset_refines .empty [.add 14, .add 64, .del 14] (.inl rfl)
    (by simp [SigsetCall.Valid, Signo]) 7).1

end Representation

section Invalid

/-- The operations that take a signal number. -/
inductive SigsetOp where
  | add
  | del
  | ismember

/-- The operation comes back with an error and the set as it was, or does not report
membership. -/
def SigsetOp.Rejects (set : Word) (signo : Int) : SigsetOp → Prop
  | .add => ∃ error, error ≠ 0 ∧ sigaddset set signo = some (error, set)
  | .del => ∃ error, error ≠ 0 ∧ sigdelset set signo = some (error, set)
  | .ismember => ∃ answer, answer ≤ 0 ∧ sigismember set signo = some answer

variable {set : Word} {signo : BitVec 32}

theorem sigaddset_invalid (invalid : ¬ Signo signo.toInt) :
    sigaddset set signo.toInt = some (-22, set) := by
  refine if_pos ?_
  unfold Signo at invalid
  omega

/-- The shift count of a number that is no signal. -/
theorem le_toNat_sigIndex (invalid : ¬ Signo signo.toInt) :
    64 ≤ (sigIndex signo.toInt).toNat := by
  have low := signo.le_toInt
  have high := signo.toInt_lt
  unfold Signo at invalid
  rw [sigIndex, BitVec.toNat_ofInt]
  omega

theorem sigdelset_invalid (invalid : ¬ Signo signo.toInt) : sigdelset set signo.toInt = none := by
  have count := le_toNat_sigIndex invalid
  rw [sigdelset, shiftLeft?, if_neg (by omega), Option.map_none]

theorem sigismember_invalid (invalid : ¬ Signo signo.toInt) :
    sigismember set signo.toInt = none := by
  have count := le_toNat_sigIndex invalid
  rw [sigismember, shiftRight?, if_neg (by omega), Option.map_none]

/-- Of the three operations only `sigaddset` rejects a number that is no signal. -/
theorem rejects_iff (set : Word) (invalid : ¬ Signo signo.toInt) (op : SigsetOp) :
    op.Rejects set signo.toInt ↔ op = .add := by
  cases op with
  | add => exact iff_of_true ⟨-22, by decide, sigaddset_invalid invalid⟩ rfl
  | del =>
    refine iff_of_false ?_ SigsetOp.noConfusion
    rintro ⟨error, -, ran⟩
    rw [sigdelset_invalid invalid] at ran
    cases ran
  | ismember =>
    refine iff_of_false ?_ SigsetOp.noConfusion
    rintro ⟨answer, -, ran⟩
    rw [sigismember_invalid invalid] at ran
    cases ran

theorem rejects_iff_zero : SigsetOp.add.Rejects 5 (0#32).toInt ↔ SigsetOp.add = .add :=
  rejects_iff 5 (by simp [Signo]) .add

/-- Deleting signal 65 shifts by 64, and so does asking for it. -/
theorem sigdelset_shifts_out : sigdelset 1 65 = none ∧ ¬ SigsetOp.del.Rejects 1 65 ∧
    ¬ SigsetOp.ismember.Rejects 1 65 := by
  refine ⟨by decide, ?_, ?_⟩
  · rintro ⟨error, -, ran⟩
    cases ran
  · rintro ⟨answer, -, ran⟩
    cases ran

end Invalid

end UnixProgramming.Libmini
