import UnixProgramming.Libmini.Signal
import UnixProgramming.Libmini.Sigset

/-!
# Signal sets and the signal mask of a program

A program has some `sigset_t` variables, builds sets in them, and calls `sigprocmask` and
`sigpending` with them, in any order. Next to it goes what it means by this: a finite set
of signals for each variable, and one for the mask. Nothing is said about `SIGKILL` and
`SIGSTOP`, which are never blocked.
-/

namespace UnixProgramming.Libmini

open Memory

section Calls

/-- `rt_sigpending`, which copies as much of the set of pending signals as it is asked for. -/
def rtSigpending (pending set size : Word) (p : Process) : Word × Process :=
  if 8 < size.toNat then (einval, p) else (0, { p with mem := store p.mem set pending })

/-- The kernel has `pending` to report. -/
def sigpending (pending set : Word) (c : Lib) : Int × Lib :=
  let (ret, p) := rtSigpending pending set 8 c.proc
  wrapperRetval ret p

/-- The functions on a set, with what they return. -/
def SigsetCall.call (set : Word) : SigsetCall → Option (Int × Word)
  | .empty => some (sigemptyset set)
  | .fill => some (sigfillset set)
  | .add signo => sigaddset set signo
  | .del signo => sigdelset set signo

/-- A call that reads or changes sets of signals; the variables are given by their addresses. -/
inductive MaskCall where
  | edit (a : Addr) (call : SigsetCall)
  | procmask (how : Word) (set old : Addr)
  | pending (a : Addr) (word : Word)

/-- The call has a signal that there is, and null pointers or variables of the program. -/
def MaskCall.Valid (vars : List Addr) : MaskCall → Prop
  | .edit a call => a ∈ vars ∧ call.Valid
  | .procmask _ set old => (set = 0 ∨ set ∈ vars) ∧ (old = 0 ∨ old ∈ vars)
  | .pending a _ => a ∈ vars

def MaskCall.exec (c : Lib) : MaskCall → Option (Int × Lib)
  | .edit a call => (call.call (load c.mem a)).map fun (ret, word) => (ret, c.write a word)
  | .procmask how set old => some (sigprocmask how set old c)
  | .pending a word => some (sigpending word a c)

end Calls

section Meaning

/-- What the sets of a program mean. -/
structure Masks where
  sets : Addr → Finset Int
  mask : Finset Int
  errno : Int

/-- The signals of a word. -/
def members (word : Word) : Finset Int := signals.filter fun s => word.getLsbD (s - 1).toNat = true

/-- `SIG_BLOCK`, `SIG_UNBLOCK` and `SIG_SETMASK`. -/
def newMask (how : Word) (S mask : Finset Int) : Option (Finset Int) :=
  if how = 0 then some (mask ∪ S)
  else if how = 1 then some (mask \ S)
  else if how = 2 then some S
  else none

/-- The mask that a call of `sigprocmask` asks for. -/
def Masks.asked (b : Masks) (how set : Word) : Option (Finset Int) :=
  if set = 0 then some b.mask else newMask how (b.sets set) b.mask

def MaskCall.build (b : Masks) : MaskCall → Masks
  | .edit a call => { b with sets := Function.update b.sets a (call.build (b.sets a)) }
  | .procmask how set old =>
    match b.asked how set with
    | none => { b with errno := 22 }
    | some mask => ⟨if old = 0 then b.sets else Function.update b.sets old b.mask, mask, 0⟩
  | .pending a word => { b with sets := Function.update b.sets a (members word), errno := 0 }

def MaskCall.answer : MaskCall → Int
  | .procmask how set _ => if set = 0 ∨ how = 0 ∨ how = 1 ∨ how = 2 then 0 else -1
  | _ => 0

/-- The variables and the mask are as meant. -/
structure Masks.Holds (vars : List Addr) (b : Masks) (c : Lib) : Prop where
  sets : ∀ a ∈ vars, Represents (load c.mem a) (b.sets a)
  mask : Represents c.proc.mask b.mask
  errno : c.errno = b.errno

end Meaning

section Refinement

variable {vars : List Addr} {b : Masks} {c : Lib} {call : MaskCall} {calls : List MaskCall}
  {set mask : Word} {S M : Finset Int}

theorem represents_members (word : Word) : Represents word (members word) := by
  intro s hs
  have listed := mem_signals.mpr hs
  simp [members, listed]

theorem Represents.block (rep : Represents mask M) (repS : Represents set S) :
    Represents (mask ||| set) (M ∪ S) := by
  intro s hs
  rw [BitVec.getLsbD_or, rep s hs, repS s hs]
  simp

theorem Represents.unblock (rep : Represents mask M) (repS : Represents set S) :
    Represents (mask &&& ~~~set) (M \ S) := by
  intro s hs
  rw [BitVec.getLsbD_and, BitVec.getLsbD_not, rep s hs, repS s hs, decide_eq_true hs.index_lt]
  simp

/-- The kernel makes of the words what is meant. -/
theorem changeMask_represents (how : Word) (rep : Represents mask M) (repS : Represents set S) :
    match changeMask how set mask, newMask how S M with
    | none, none => True
    | some word, some meant => Represents word meant
    | _, _ => False := by
  unfold changeMask newMask
  split_ifs
  · exact rep.block repS
  · exact rep.unblock repS
  · exact repS
  · trivial

theorem SigsetCall.call_eq {call : SigsetCall} (valid : call.Valid) {set' : Word}
    (ran : call.exec set = some set') : call.call set = some (0, set') := by
  cases call with
  | empty => cases ran; rfl
  | fill => cases ran; rfl
  | add signo =>
    rw [SigsetCall.exec, sigaddset_eq valid] at ran
    cases ran
    exact sigaddset_eq valid
  | del signo =>
    rw [SigsetCall.exec, sigdelset_eq valid] at ran
    cases ran
    exact sigdelset_eq valid

/-- Writing one variable leaves the others as they are. -/
theorem represents_store (apart : ∀ a ∈ vars, ∀ a' ∈ vars, a ≠ a' → Separate a a')
    (sets : ∀ a ∈ vars, Represents (load c.mem a) (b.sets a)) {a : Addr} (own : a ∈ vars)
    (rep : Represents set S) :
    ∀ a' ∈ vars, Represents (load (store c.mem a set) a') (Function.update b.sets a S a') := by
  intro a' own'
  by_cases here : a' = a
  · subst here
    rwa [load_store, Function.update_self]
  · rw [load_store_of_separate (apart a' own' a own here), Function.update_of_ne here]
    exact sets a' own'

theorem wrapperRetval_zero (p : Process) : wrapperRetval 0 p = (0, ⟨p, 0⟩) := rfl

theorem wrapperRetval_einval (p : Process) : wrapperRetval einval p = (-1, ⟨p, 22⟩) := rfl

theorem sigpending_eq (word a : Word) (c : Lib) :
    sigpending word a c = (0, ⟨{ c.proc with mem := store c.mem a word }, 0⟩) := by
  have fits : ¬ 8 < (8 : Word).toNat := by decide
  rw [sigpending, rtSigpending, if_neg fits]
  exact wrapperRetval_zero _

theorem rtSigprocmask_eq (how set old : Word) (p : Process) : rtSigprocmask how set old 8 p =
    match if set = 0 then some p.mask else changeMask how (load p.mem set) p.mask with
    | none => (einval, p)
    | some mask => (0, { p with
        mem := if old = 0 then p.mem else store p.mem old p.mask
        mask := mask }) := if_neg (by decide)

/-- Both refuse, or the new mask is as meant. -/
theorem Masks.Holds.asked (h : b.Holds vars c) (how : Word) {set : Addr} (own : set = 0 ∨ set ∈ vars) :
    ((set = 0 ∨ how = 0 ∨ how = 1 ∨ how = 2) ∧ ∃ word meant,
      (if set = 0 then some c.proc.mask else changeMask how (load c.mem set) c.proc.mask) = some word ∧
        b.asked how set = some meant ∧ Represents word meant) ∨
    (¬ (set = 0 ∨ how = 0 ∨ how = 1 ∨ how = 2) ∧
      (if set = 0 then some c.proc.mask else changeMask how (load c.mem set) c.proc.mask) = none ∧
        b.asked how set = none) := by
  by_cases null : set = 0
  · rw [if_pos null, Masks.asked, if_pos null]
    exact .inl ⟨.inl null, _, _, rfl, rfl, h.mask⟩
  rw [if_neg null, Masks.asked, if_neg null]
  have related := changeMask_represents how h.mask (h.sets set (own.resolve_left null))
  have known : (set = 0 ∨ how = 0 ∨ how = 1 ∨ how = 2) ↔
      (newMask how (b.sets set) b.mask).isSome := by
    unfold newMask
    split_ifs <;> simp_all
  rw [known]
  cases kernel : changeMask how (load c.mem set) c.proc.mask with
  | none =>
    cases asked : newMask how (b.sets set) b.mask with
    | none => exact .inr ⟨by simp, rfl, rfl⟩
    | some meant => simp [kernel, asked] at related
  | some word =>
    cases asked : newMask how (b.sets set) b.mask with
    | none => simp [kernel, asked] at related
    | some meant =>
      simp only [kernel, asked] at related
      exact .inl ⟨rfl, word, meant, rfl, rfl, related⟩

theorem Settable.signo {s : Int} (able : Settable s) : Signo s := ⟨able.1, able.2.1⟩

/-- One call does what is meant by it, and returns what it should. -/
theorem Masks.Holds.exec (h : b.Holds vars c)
    (apart : ∀ a ∈ vars, ∀ a' ∈ vars, a ≠ a' → Separate a a') (valid : call.Valid vars) :
    ∃ c', call.exec c = some (call.answer, c') ∧ (call.build b).Holds vars c' ∧
      Set.EqOn c'.mem c.mem {x | ∃ a ∈ vars, x ∈ window a 8}ᶜ ∧ c'.proc.actions = c.proc.actions := by
  have outside {a : Addr} (own : a ∈ vars) (word : Word) :
      Set.EqOn (store c.mem a word) c.mem {x | ∃ a ∈ vars, x ∈ window a 8}ᶜ :=
    fun x out => store_of_notMem fun near => out ⟨a, own, near⟩
  cases call with
  | edit a call =>
    rcases valid with ⟨own, valid⟩
    rcases (h.sets a own).exec call valid with ⟨word, ran, rep⟩
    refine ⟨c.write a word, ?_, ⟨represents_store apart h.sets own rep, h.mask, h.errno⟩,
      outside own word, rfl⟩
    rw [MaskCall.exec, SigsetCall.call_eq valid ran]
    rfl
  | pending a word =>
    rw [MaskCall.Valid] at valid
    rw [MaskCall.exec, sigpending_eq]
    exact ⟨_, rfl, ⟨represents_store apart h.sets valid (represents_members word), h.mask, rfl⟩,
      outside valid word, rfl⟩
  | procmask how set old =>
    rcases valid with ⟨own, own'⟩
    have ran := rtSigprocmask_eq how set old c.proc
    rcases h.asked how own with ⟨known, word, meant, kernel, asked, rep⟩ | ⟨other, kernel, asked⟩
    · have result : MaskCall.exec c (.procmask how set old) = some (0, ⟨{ c.proc with
          mem := if old = 0 then c.mem else store c.mem old c.proc.mask
          mask := word }, 0⟩) := by
        rw [MaskCall.exec, sigprocmask, ran]
        simp only [Lib.mem] at kernel
        rw [kernel]
        rfl
      have built : MaskCall.build b (.procmask how set old) =
          ⟨if old = 0 then b.sets else Function.update b.sets old b.mask, meant, 0⟩ := by
        rw [MaskCall.build, asked]
      rw [result, built, MaskCall.answer, if_pos known]
      refine ⟨_, rfl, ⟨?_, rep, rfl⟩, ?_, rfl⟩
      · by_cases null : old = 0
        · rw [if_pos null]
          simpa only [Lib.mem, if_pos null] using h.sets
        · rw [if_neg null]
          have written := represents_store apart h.sets (own'.resolve_left null) h.mask
          simpa only [Lib.mem, if_neg null] using written
      · by_cases null : old = 0
        · simpa only [Lib.mem, if_pos null] using Set.eqOn_refl _ _
        · have written := outside (own'.resolve_left null) c.proc.mask
          simpa only [Lib.mem, if_neg null] using written
    · have result : MaskCall.exec c (.procmask how set old) = some (-1, ⟨c.proc, 22⟩) := by
        rw [MaskCall.exec, sigprocmask, ran]
        simp only [Lib.mem] at kernel
        rw [kernel]
        rfl
      have built : MaskCall.build b (.procmask how set old) = { b with errno := 22 } := by
        rw [MaskCall.build, asked]
      rw [result, built, MaskCall.answer, if_neg other]
      exact ⟨_, rfl, ⟨h.sets, h.mask, rfl⟩, Set.eqOn_refl _ _, rfl⟩

end Refinement

end UnixProgramming.Libmini
