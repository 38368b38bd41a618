import Mathlib.Data.Set.Function
import UnixProgramming.Libmini.Kernel

/-!
# `sigaction` and `signal`

The state is the process and `errno`. Where the compiler puts the local variables of a
call is a parameter: a frame gives their addresses, and what they hold before they are
assigned is what the memory there holds.

`sigaction` moves `sa_mask` with a `sigprocmask` that blocks it and stores the old
signal mask in its place. So it installs the signal mask of the process as the mask of
the handler, and blocks the one asked for.
-/

namespace UnixProgramming.Libmini

open Memory

structure Lib where
  proc : Process
  errno : Int

namespace Lib

def mem (c : Lib) : Addr → BitVec 8 := c.proc.mem

def write (c : Lib) (a : Addr) (w : Word) : Lib :=
  { c with proc := { c.proc with mem := store c.mem a w } }

end Lib

section Frames

/-- `n` bytes that a C object can have: not at the null pointer and not around the end. -/
structure Object (a : Addr) (n : Nat) : Prop where
  nonnull : 0 < a.toNat
  fits : a.toNat + n ≤ 2 ^ 64

theorem Object.slot_ne {a : Addr} {n i : Nat} (h : Object a n) (hi : 8 * i < n) : slot a i ≠ 0 := by
  obtain ⟨pos, fits⟩ := h
  intro zero
  have value := congrArg BitVec.toNat zero
  rw [slot, BitVec.toNat_add, BitVec.toNat_ofNat, Nat.mod_eq_of_lt (b := 2 ^ 64) (by omega),
    Nat.mod_eq_of_lt (by omega)] at value
  simp at value
  omega

/-- The variables of a call of `sigaction`: `kact`, and the parameter `oact`, whose own
address goes to the kernel. The 32 bytes there lie inside what the call has of the stack. -/
structure SigactionFrame where
  stack : Set Addr
  kact : Addr
  oact : Addr
  kact_object : Object kact 32
  kact_inside : window kact 32 ⊆ stack
  oact_inside : window oact 32 ⊆ stack
  apart : ∀ x ∈ window kact 32, x ∉ window oact 8

/-- A structure that the caller passes to `sigaction`. -/
structure SigactionFrame.Passed (f : SigactionFrame) (a : Addr) : Prop where
  object : Object a 32
  outside : Disjoint (window a 32) f.stack

/-- The variables of a call of `signal`, and the call of `sigaction` that it makes. -/
structure SignalFrame where
  stack : Set Addr
  act : Addr
  oact : Addr
  callee : SigactionFrame
  act_object : Object act 32
  act_inside : window act 32 ⊆ stack
  oact_object : Object oact 32
  oact_inside : window oact 32 ⊆ stack
  apart : ∀ x ∈ window act 32, x ∉ window oact 32
  below : Disjoint stack callee.stack

end Frames

section Calls

/-- `WRAPPER_RETval(unsigned int)` in a function that returns `int`. -/
def wrapperRetval (ret : Word) (p : Process) : Int × Lib :=
  if ret.toInt < 0 then (-1, ⟨p, -ret.toInt⟩) else ((ret.setWidth 32).toInt, ⟨p, 0⟩)

def sigprocmask (how set oldset : Word) (c : Lib) : Int × Lib :=
  let (ret, p) := rtSigprocmask how set oldset 8 c.proc
  wrapperRetval ret p

def saRestorer : Word := 0x04000000

def sigErr : Word := -1

-- the address of the routine that handlers return to
variable (sysSigreturn : Word)

/-- What `sigaction` does when `nact` is given. -/
def fill (f : SigactionFrame) (nact : Addr) (c : Lib) : Lib :=
  let c := c.write (slot f.kact 0) (load c.mem (slot nact 0))
  let c := (sigprocmask 0 (slot nact 3) (slot f.kact 3) c).2
  let c := c.write (slot f.kact 1) (load c.mem (slot nact 1) ||| saRestorer)
  c.write (slot f.kact 2) sysSigreturn

/-- The kernel is given the address of `oact`, not its value. -/
def sigaction (f : SigactionFrame) (how : Int) (nact oact : Addr) (c : Lib) : Int × Lib :=
  let c := c.write f.oact oact
  let c := if nact ≠ 0 then fill sysSigreturn f nact c else c
  let (ret, p) := rtSigaction how f.kact f.oact 8 c.proc
  wrapperRetval ret p

def signal (f : SignalFrame) (signum : Int) (handler : Word) (c : Lib) : Word × Lib :=
  let c := c.write (slot f.act 0) handler
  let c := c.write (slot f.act 1) 0
  let (ret, c) := sigaction sysSigreturn f.callee signum f.act f.oact c
  if ret < 0 then (sigErr, c) else (load c.mem (slot f.oact 0), c)

end Calls

section Effects

variable {sysSigreturn : Word} {f : SigactionFrame} {signo : Int} {nact oact : Addr} {c : Lib}

theorem SigactionFrame.Passed.nonnull {a : Addr} (h : f.Passed a) : a ≠ 0 := by
  simpa [slot] using h.object.slot_ne (i := 0) (by decide)

theorem SigactionFrame.Passed.load {a : Addr} {i : Nat} (h : f.Passed a) (hi : i < 4)
    {m m' : Addr → BitVec 8} (same : Set.EqOn m' m f.stackᶜ) :
    Memory.load m' (slot a i) = Memory.load m (slot a i) :=
  load_eqOn same (h.outside.mono_left (slot_subset a (n := 4) hi (by decide)))

theorem SigactionFrame.oact_subset (f : SigactionFrame) : window f.oact 8 ⊆ f.stack :=
  fun _ near => f.oact_inside (lt_of_lt_of_le (mem_window.mp near) (by decide))

theorem SigactionFrame.kact_subset (f : SigactionFrame) {i : Nat} (hi : i < 4) :
    window (slot f.kact i) 8 ⊆ f.stack :=
  (slot_subset f.kact (n := 4) hi (by decide)).trans f.kact_inside

/-- What `sigaction` writes before its system call when `nact` is given. -/
def fills (sysSigreturn : Word) (f : SigactionFrame) (nact oact : Addr) (c : Lib) : List (Addr × Word) :=
  [(f.oact, oact), (slot f.kact 0, load c.mem (slot nact 0)), (slot f.kact 3, c.proc.mask),
    (slot f.kact 1, load c.mem (slot nact 1) ||| saRestorer), (slot f.kact 2, sysSigreturn)]

theorem fills_inside : ∀ p ∈ fills sysSigreturn f nact oact c, window p.1 8 ⊆ f.stack := by
  simp [fills, f.oact_subset, f.kact_subset]

theorem fills_apart : (fills sysSigreturn f nact oact c).Pairwise fun p q => Separate p.1 q.1 := by
  have slots {i j : Nat} (other : i ≠ j) (hi : i < 4) (hj : j < 4) :
      Separate (slot f.kact i) (slot f.kact j) := separate_slots _ other (by omega) (by omega)
  have param {i : Nat} (hi : i < 4) : Separate f.oact (slot f.kact i) :=
    fun x near far => f.apart x (slot_subset f.kact (n := 4) hi (by decide) far) near
  simp [fills, slots, param]

theorem loadAction_fills : loadAction (stores c.mem (fills sysSigreturn f nact oact c)) f.kact =
    ⟨load c.mem (slot nact 0), load c.mem (slot nact 1) ||| saRestorer, sysSigreturn, c.proc.mask⟩ := by
  simp only [loadAction, Action.mk.injEq]
  refine ⟨?_, ?_, ?_, ?_⟩ <;> exact load_stores fills_apart (by simp [fills])

theorem sigprocmask_block {set oldset : Addr} (hset : set ≠ 0) (hold : oldset ≠ 0) :
    sigprocmask 0 set oldset c = (0, ⟨{ c.proc with
      mem := store c.mem oldset c.proc.mask
      mask := c.proc.mask ||| load c.mem set }, 0⟩) := by
  simp only [sigprocmask, rtSigprocmask, changeMask, if_neg hset, if_neg hold]
  rfl

theorem fill_eq (h : f.Passed nact) :
    fill sysSigreturn f nact (c.write f.oact oact) = ⟨{ c.proc with
      mem := stores c.mem (fills sysSigreturn f nact oact c)
      mask := c.proc.mask ||| load c.mem (slot nact 3) }, 0⟩ := by
  have user {i k : Nat} (hi : i < 4) :
      load (stores c.mem ((fills sysSigreturn f nact oact c).take k)) (slot nact i) =
        load c.mem (slot nact i) :=
    h.load hi (stores_eqOn fun p hp => fills_inside p (List.mem_of_mem_take hp))
  have blocked (c' : Lib) : sigprocmask 0 (slot nact 3) (slot f.kact 3) c' = _ :=
    sigprocmask_block (h.object.slot_ne (by decide)) (f.kact_object.slot_ne (by decide))
  -- the user's structure is read through what is already written
  have handler : load (store c.proc.mem f.oact oact) (slot nact 0) = load c.mem (slot nact 0) :=
    user (k := 1) (by decide)
  have mask : load (store (store c.proc.mem f.oact oact) (slot f.kact 0) (load c.mem (slot nact 0)))
      (slot nact 3) = load c.mem (slot nact 3) := user (k := 2) (by decide)
  have flags : load (store (store (store c.proc.mem f.oact oact) (slot f.kact 0)
      (load c.mem (slot nact 0))) (slot f.kact 3) c.proc.mask) (slot nact 1) =
        load c.mem (slot nact 1) := user (k := 3) (by decide)
  simp only [fill, blocked, Lib.write]
  simp only [Lib.mem] at handler mask flags ⊢
  simp only [handler, mask, flags]
  rfl

theorem rtSigaction_settable (h : Settable signo) (a b : Addr) (p : Process) :
    rtSigaction signo a b 8 p = (0, { p with
      mem := storeAction p.mem b (p.actions signo)
      actions := Function.update p.actions signo (loadAction p.mem a) }) :=
  if_neg (by simp [h])

theorem storeAction_eqOn (m : Addr → BitVec 8) (act : Action) :
    Set.EqOn (storeAction m f.oact act) m f.stackᶜ := by
  have inside {i : Nat} (hi : i < 4) : window (slot f.oact i) 8 ⊆ f.stack :=
    (slot_subset f.oact (n := 4) hi (by decide)).trans f.oact_inside
  exact stores_eqOn (by simp [inside])

/-- What a call of `sigaction` does: `new` is installed, and outside the stack no memory
changes. -/
structure Effect (f : SigactionFrame) (signo : Int) (new : Action) (mask : Word) (c : Lib)
    (r : Int × Lib) : Prop where
  ret : r.1 = 0
  actions : r.2.proc.actions = Function.update c.proc.actions signo new
  mask : r.2.proc.mask = mask
  mem : Set.EqOn r.2.mem c.mem f.stackᶜ

/-- Its handler mask is the signal mask of the process, whose signals in `sa_mask` become
blocked. -/
theorem sigaction_given (sysSigreturn : Word) (oact : Addr) (c : Lib) (settable : Settable signo)
    (h : f.Passed nact) :
    Effect f signo ⟨load c.mem (slot nact 0), load c.mem (slot nact 1) ||| saRestorer, sysSigreturn,
        c.proc.mask⟩ (c.proc.mask ||| load c.mem (slot nact 3)) c
      (sigaction sysSigreturn f signo nact oact c) := by
  have kept : Set.EqOn (stores c.mem (fills sysSigreturn f nact oact c)) c.mem f.stackᶜ :=
    stores_eqOn fills_inside
  simp only [sigaction, if_pos h.nonnull, fill_eq h, rtSigaction_settable settable, loadAction_fills]
  exact ⟨rfl, rfl, rfl, (storeAction_eqOn _ _).trans kept⟩

/-- Without `nact` it installs whatever is in `kact`. -/
theorem sigaction_null (sysSigreturn : Word) (f : SigactionFrame) (oact : Addr) (c : Lib)
    (settable : Settable signo) :
    Effect f signo (loadAction c.mem f.kact) c.proc.mask c
      (sigaction sysSigreturn f signo 0 oact c) := by
  have stale {i : Nat} (hi : i < 4) : load (c.write f.oact oact).mem (slot f.kact i) =
      load c.mem (slot f.kact i) :=
    load_store_of_separate fun x near =>
      f.apart x (slot_subset f.kact (n := 4) hi (by decide) near)
  have kept : Set.EqOn (c.write f.oact oact).mem c.mem f.stackᶜ :=
    fun x out => store_of_notMem fun near => out (f.oact_subset near)
  simp only [sigaction, ne_eq, not_true_eq_false, if_false, rtSigaction_settable settable, loadAction]
  rw [← stale (i := 0) (by decide), ← stale (i := 1) (by decide), ← stale (i := 2) (by decide),
    ← stale (i := 3) (by decide)]
  exact ⟨rfl, rfl, rfl, (storeAction_eqOn _ _).trans kept⟩

theorem SignalFrame.passed (f : SignalFrame) : f.callee.Passed f.act :=
  ⟨f.act_object, f.below.mono_left f.act_inside⟩

/-- What a call of `signal` does: it returns what is in `oact`, and of `sa_mask` nothing is
assigned before it is used. -/
structure SignalEffect (sysSigreturn : Word) (f : SignalFrame) (signum : Int) (handler : Word) (c : Lib)
    (r : Word × Lib) : Prop where
  ret : r.1 = load c.mem (slot f.oact 0)
  actions : r.2.proc.actions =
    Function.update c.proc.actions signum ⟨handler, 0 ||| saRestorer, sysSigreturn, c.proc.mask⟩
  mask : r.2.proc.mask = c.proc.mask ||| load c.mem (slot f.act 3)
  mem : Set.EqOn r.2.mem c.mem (f.stack ∪ f.callee.stack)ᶜ

/-- The two assignments of `signal`. -/
def SignalFrame.assigned (f : SignalFrame) (handler : Word) : List (Addr × Word) :=
  [(slot f.act 0, handler), (slot f.act 1, 0)]

def SignalFrame.before (f : SignalFrame) (handler : Word) (c : Lib) : Lib :=
  (c.write (slot f.act 0) handler).write (slot f.act 1) 0

section Signal

variable {f : SignalFrame} {signum : Int} {handler : Word}

theorem SignalFrame.before_mem (f : SignalFrame) (handler : Word) (c : Lib) :
    (f.before handler c).mem = stores c.mem (f.assigned handler) := rfl

theorem SignalFrame.assigned_inside : ∀ p ∈ f.assigned handler, window p.1 8 ⊆ f.stack := by
  have inside {i : Nat} (hi : i < 4) : window (slot f.act i) 8 ⊆ f.stack :=
    (slot_subset f.act (n := 4) hi (by decide)).trans f.act_inside
  simp [assigned, inside]

theorem SignalFrame.before_act (f : SignalFrame) (handler : Word) (c : Lib) :
    load (f.before handler c).mem (slot f.act 0) = handler ∧
      load (f.before handler c).mem (slot f.act 1) = 0 ∧
        load (f.before handler c).mem (slot f.act 3) = load c.mem (slot f.act 3) := by
  have slots {i j : Nat} (other : i ≠ j) (hi : i < 4) (hj : j < 4) :
      Separate (slot f.act i) (slot f.act j) := separate_slots _ other (by omega) (by omega)
  have apart : (f.assigned handler).Pairwise fun p q => Separate p.1 q.1 := by simp [assigned, slots]
  rw [before_mem]
  exact ⟨load_stores apart (by simp [assigned]), load_stores apart (by simp [assigned]),
    load_stores_of_separate (by simp [assigned, slots])⟩

theorem SignalFrame.before_oact :
    load (f.before handler c).mem (slot f.oact 0) = load c.mem (slot f.oact 0) := by
  have other {i : Nat} (hi : i < 4) : Separate (slot f.oact 0) (slot f.act i) :=
    fun x near far => f.apart x (slot_subset f.act (n := 4) hi (by decide) far)
      (slot_subset f.oact (n := 4) (by decide) (by decide) near)
  rw [before_mem]
  exact load_stores_of_separate (by simp [assigned, other])

theorem signal_eq (sysSigreturn : Word) (f : SignalFrame) (signum : Int) (handler : Word) (c : Lib) :
    signal sysSigreturn f signum handler c =
      let r := sigaction sysSigreturn f.callee signum f.act f.oact (f.before handler c)
      if r.1 < 0 then (sigErr, r.2) else (load r.2.mem (slot f.oact 0), r.2) := rfl

theorem signal_effect (sysSigreturn : Word) (f : SignalFrame) (handler : Word) (c : Lib)
    (settable : Settable signum) :
    SignalEffect sysSigreturn f signum handler c (signal sysSigreturn f signum handler c) := by
  have effect := sigaction_given sysSigreturn f.oact (f.before handler c) settable f.passed
  obtain ⟨first, second, stale⟩ := f.before_act handler c
  rw [first, second, stale] at effect
  rw [signal_eq, if_neg (by rw [effect.ret]; decide)]
  refine ⟨?_, effect.actions, effect.mask, fun x out => ?_⟩
  · have outside : Disjoint (window (slot f.oact 0) 8) f.callee.stack :=
      f.below.mono_left ((slot_subset f.oact (n := 4) (by decide) (by decide)).trans f.oact_inside)
    exact (load_eqOn effect.mem outside).trans f.before_oact
  · rw [Set.compl_union] at out
    exact (effect.mem out.2).trans (stores_eqOn f.assigned_inside out.1)

end Signal

end Effects

section Installing

variable {signo : Int} {p p' : Process}

/-- The action that `sigaction` should give the kernel for `act`. -/
def kernelAction (sysSigreturn : Word) (act : Action) : Action :=
  ⟨act.handler, act.flags ||| saRestorer, sysSigreturn, act.mask⟩

/-- `act` becomes the action of `signo`, and neither another action nor the signal mask of
the process changes. -/
structure Installs (sysSigreturn : Word) (signo : Int) (act : Action) (p p' : Process) : Prop where
  actions : p'.actions = Function.update p.actions signo (kernelAction sysSigreturn act)
  mask : p'.mask = p.mask

theorem installs_iff_mask {sysSigreturn w : Word} (act : Action)
    (actions : p'.actions = Function.update p.actions signo
      ⟨act.handler, act.flags ||| saRestorer, sysSigreturn, p.mask⟩)
    (mask : p'.mask = p.mask ||| w) :
    Installs sysSigreturn signo act p p' ↔ act.mask = p.mask ∧ p.mask ||| w = p.mask := by
  constructor
  · intro ok
    have same := (Function.update_injective p.actions signo) (actions.symm.trans ok.actions)
    simp only [kernelAction, Action.mk.injEq, true_and] at same
    exact ⟨same.symm, mask.symm.trans ok.mask⟩
  · rintro ⟨same, absorbed⟩
    exact ⟨by rw [actions, kernelAction, same], mask.trans absorbed⟩

/-- `sigaction` installs what it is given only if the handler mask is the signal mask, and
`signal` only if the signal mask is empty and the unassigned `sa_mask` is by chance empty. -/
theorem sigaction_signal_install (sysSigreturn : Word) (settable : Settable signo) :
    (∀ (f : SigactionFrame) (nact oact : Addr) (c : Lib), f.Passed nact →
      (Installs sysSigreturn signo (loadAction c.mem nact) c.proc
          (sigaction sysSigreturn f signo nact oact c).2.proc ↔
        load c.mem (slot nact 3) = c.proc.mask)) ∧
    ∀ (f : SignalFrame) (handler : Word) (c : Lib),
      Installs sysSigreturn signo ⟨handler, 0, 0, 0⟩ c.proc
          (signal sysSigreturn f signo handler c).2.proc ↔
        c.proc.mask = 0 ∧ load c.mem (slot f.act 3) = 0 := by
  refine ⟨fun f nact oact c passed => ?_, fun f handler c => ?_⟩
  · have effect := sigaction_given sysSigreturn oact c settable passed
    rw [installs_iff_mask (loadAction c.mem nact) effect.actions effect.mask]
    refine ⟨fun h => h.1, fun h => ⟨h, ?_⟩⟩
    rw [h, BitVec.or_self]
  · have effect := signal_effect sysSigreturn f handler c settable
    rw [installs_iff_mask ⟨handler, 0, 0, 0⟩ effect.actions effect.mask]
    constructor
    · rintro ⟨same, absorbed⟩
      have empty : c.proc.mask = 0 := same.symm
      rw [empty] at absorbed
      exact ⟨empty, BitVec.zero_or.symm.trans absorbed⟩
    · rintro ⟨empty, stale⟩
      rw [empty, stale]
      exact ⟨rfl, rfl⟩

end Installing

section Frames

/-- A frame as `gcc` lays it out: the parameter below the variable. -/
def lowFrame : SigactionFrame where
  stack := window 0x7000 0x100
  kact := 0x7060
  oact := 0x7010
  kact_object := ⟨by decide, by decide⟩
  kact_inside := window_subset 0x7000 (k := 0x60) (by decide) (by decide)
  oact_inside := window_subset 0x7000 (k := 0x10) (by decide) (by decide)
  apart x near far := by
    rw [mem_window] at near far
    bv_omega

/-- The frame of a call of `signal` above it. -/
def highFrame : SignalFrame where
  stack := window 0x7100 0x100
  act := 0x7140
  oact := 0x7180
  callee := lowFrame
  act_object := ⟨by decide, by decide⟩
  act_inside := window_subset 0x7100 (k := 0x40) (by decide) (by decide)
  oact_object := ⟨by decide, by decide⟩
  oact_inside := window_subset 0x7100 (k := 0x80) (by decide) (by decide)
  apart x near far := by
    rw [mem_window] at near far
    bv_omega
  below := Set.disjoint_left.mpr fun x near far => by
    change x ∈ window 0x7000 0x100 at far
    rw [mem_window] at near far
    bv_omega

theorem lowFrame_passed : lowFrame.Passed 0x9000 where
  object := ⟨by decide, by decide⟩
  outside := Set.disjoint_left.mpr fun x near far => by
    change x ∈ window 0x7000 0x100 at far
    rw [mem_window] at near far
    bv_omega

/-- A process with `act` at `0x9000`, nothing else in memory and no signal blocked. -/
def idle (act : Action) : Lib :=
  ⟨{ mem := storeAction (fun _ => 0) 0x9000 act, mask := 0, actions := fun _ => ⟨0, 0, 0, 0⟩ }, 0⟩

theorem sigaction_signal_install_idle :
    let c := idle ⟨0x401000, 0, 0, 0⟩
    Installs 0x402000 14 (loadAction c.mem 0x9000) c.proc
        (sigaction 0x402000 lowFrame 14 0x9000 0 c).2.proc ∧
      Installs 0x402000 14 ⟨0x401000, 0, 0, 0⟩ c.proc (signal 0x402000 highFrame 14 0x401000 c).2.proc :=
  have both := sigaction_signal_install 0x402000 (show Settable 14 by decide)
  ⟨(both.1 lowFrame 0x9000 0 _ lowFrame_passed).mpr (by decide +kernel),
    (both.2 highFrame 0x401000 _).mpr ⟨rfl, by decide +kernel⟩⟩

/-- An action for `SIGALRM` whose handler mask is `SIGINT` leaves `SIGINT` blocked. -/
theorem sigaction_blocks_mask :
    let c := idle ⟨0x401000, 0, 0, 2⟩
    ¬ Installs 0x402000 14 (loadAction c.mem 0x9000) c.proc
      (sigaction 0x402000 lowFrame 14 0x9000 0 c).2.proc := by
  intro c ok
  have effect := sigaction_given 0x402000 0 c (show Settable 14 by decide) lowFrame_passed
  have blocked : c.proc.mask ||| load c.mem (slot 0x9000 3) ≠ c.proc.mask := by decide +kernel
  exact blocked (effect.mask.symm.trans ok.mask)

end Frames

end UnixProgramming.Libmini
