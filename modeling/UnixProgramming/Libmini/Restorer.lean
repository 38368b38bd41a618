import UnixProgramming.Libmini.Signal
import UnixProgramming.Libmini.Stub

/-!
# The way back from a handler

The kernel keeps what a signal interrupts in a frame on the stack, with the address of
`sys_sigreturn` as the first word. A handler returns to that address, and the system call there
takes the interrupted code up again. Handlers are interrupted as well, and so is the way back.
-/

namespace UnixProgramming.Libmini

open Memory

section Model

/-- `sys_sigreturn`. -/
def sysSigreturn : List Asm := [.plain (.imm .rax 15), .plain .syscall, .plain .ret]

/-- What a signal interrupts. -/
structure Context where
  regs : Reg → Word
  rip : Word
  flags : Word
  mask : Word

structure Thread where
  machine : Machine
  flags : Word

namespace Thread

def context (s : Thread) : Context :=
  ⟨s.machine.regs, s.machine.rip, s.flags, s.machine.proc.mask⟩

def mem (s : Thread) : Addr → BitVec 8 := s.machine.mem

/-- The `ret` at the end of a handler. -/
def ret (s : Thread) : Thread := { s with machine := Machine.run id [.ret] s.machine }

end Thread

/-- The kernel's side of a signal. Where in the frame it keeps what, is its own affair. -/
structure Delivery where
  size : Nat
  /-- where the frame for an interrupted thread is put -/
  addr : Thread → Addr
  /-- the thread as it enters the handler -/
  enter : Int → Thread → Thread
  /-- what the frame at an address holds -/
  context : (Addr → BitVec 8) → Addr → Context

namespace Delivery

variable (k : Delivery)

def frame (s : Thread) : Set Addr := window (k.addr s) k.size

/-- The system call `rt_sigreturn`: the frame begins one word below the stack pointer. -/
def sigreturn (s : Thread) : Thread :=
  let c := k.context s.mem (s.machine.regs .rsp - 8)
  ⟨⟨c.regs, c.rip, { s.machine.proc with mask := c.mask }⟩, c.flags⟩

/-- One instruction, where the only system call is number 15. -/
def exec (code : Code) (s : Thread) : Option Thread :=
  match code s.machine.rip with
  | some (.plain .syscall, _) => if s.machine.regs .rax = 15 then some (k.sigreturn s) else none
  | some (.plain i, next) =>
    some { s with machine := Machine.run id [i] { s.machine with rip := next } }
  | _ => none

/-- The frame holds the context and the address to return to, as long as nobody writes there. -/
structure Documented : Prop where
  word : 8 ≤ k.size
  rsp : ∀ signo s, (k.enter signo s).machine.regs .rsp = k.addr s
  handler : ∀ signo s, (k.enter signo s).machine.rip = (s.machine.proc.actions signo).handler
  outside : ∀ signo s, Set.EqOn (k.enter signo s).mem s.mem (k.frame s)ᶜ
  back : ∀ signo s, load (k.enter signo s).mem (k.addr s) = (s.machine.proc.actions signo).restorer
  saved : ∀ signo s m, Set.EqOn m (k.enter signo s).mem (k.frame s) → k.context m (k.addr s) = s.context

end Delivery

/-- An action with which a handler returns to the given address. -/
structure Action.Restores (act : Action) (restorer : Word) : Prop where
  flag : act.flags &&& saRestorer ≠ 0
  restorer : act.restorer = restorer

/-- The signal is not blocked and has a handler, which is neither `SIG_DFL` nor `SIG_IGN`. -/
structure Deliverable (restorer : Word) (signo : Int) (s : Thread) : Prop where
  settable : Settable signo
  unblocked : s.machine.proc.mask.getLsbD (signo.toNat - 1) = false
  handler : (s.machine.proc.actions signo).handler ≠ 0 ∧ (s.machine.proc.actions signo).handler ≠ 1
  restores : (s.machine.proc.actions signo).Restores restorer

variable (k : Delivery) (code : Code) (restorer : Word) (own : Thread → Thread → Prop)

/-- A thread makes `n` steps of its own, none of which writes to the frames `live` that are in
use. Signals come between any two instructions, also in handlers and in `sys_sigreturn`. A
handler comes to its `ret` with the stack pointer where it found it. -/
inductive Runs : Set Addr → Nat → Thread → Thread → Prop where
  | refl {live s} : Runs live 0 s s
  | step {live n s s' t} : own s s' → Set.EqOn s'.mem s.mem live → Runs live n s' t →
      Runs live (n + 1) s t
  | signal {live n m signo s h a b c r t} : Deliverable restorer signo s → Disjoint (k.frame s) live →
      Runs (k.frame s ∪ live) m (k.enter signo s) h → h.machine.regs .rsp = k.addr s →
      Runs (k.frame s ∪ live) 0 h.ret a → k.exec code a = some b →
      Runs (k.frame s ∪ live) 0 b c → k.exec code c = some r →
      Runs live n r t → Runs live n s t

/-- The same thread, with the same contents of some memory. -/
structure Same (live : Set Addr) (s t : Thread) : Prop where
  context : t.context = s.context
  mem : Set.EqOn t.mem s.mem live

/-- A thread makes `n` steps of its own, and all that happens between them is that memory
changes, but not that in `live`. -/
inductive Steps (live : Set Addr) : Nat → Thread → Thread → Prop where
  | refl {s t} : Same live s t → Steps live 0 s t
  | step {n s s' s'' t} : Same live s s' → own s' s'' → Set.EqOn s''.mem s'.mem live →
      Steps live n s'' t → Steps live (n + 1) s t

end Model

section Return

variable {k : Delivery} {code : Code} {restorer : Word} {own : Thread → Thread → Prop}
  {live : Set Addr} {n m : Nat} {signo : Int} {s t h a b c r : Thread}

theorem Same.refl (live : Set Addr) (s : Thread) : Same live s s := ⟨rfl, fun _ _ => rfl⟩

theorem Same.trans (first : Same live s t) (second : Same live t r) : Same live s r :=
  ⟨second.context.trans first.context, second.mem.trans first.mem⟩

theorem Same.steps (same : Same live s t) (steps : Steps own live n t r) : Steps own live n s r := by
  cases steps with
  | refl rest => exact .refl (same.trans rest)
  | step rest moved kept steps => exact .step (same.trans rest) moved kept steps

theorem Steps.mem (steps : Steps own live n s t) : Set.EqOn t.mem s.mem live := by
  induction steps with
  | refl same => exact same.mem
  | step same _ kept _ ih => exact ih.trans (kept.trans same.mem)

theorem Steps.same (steps : Steps own live 0 s t) : Same live s t := by
  cases steps with
  | refl same => exact same

/-- The two instructions at the restorer. -/
structure Restoring (code : Code) (restorer next : Word) : Prop where
  number : code restorer = some (.plain (.imm .rax 15), next)
  call : ∃ last, code next = some (.plain .syscall, last)

theorem restoring_of_laid {behind : Word} (laid : Laid code restorer sysSigreturn behind) :
    ∃ next, Restoring code restorer next := by
  rcases laid with ⟨next, number, last, call, -⟩
  exact ⟨next, number, last, call⟩

/-- The state in which the system call is made. -/
def Thread.numbered (a : Thread) (next : Word) : Thread :=
  { a with machine := { a.machine.set .rax 15 with rip := next } }

theorem Restoring.exec_number {next : Word} (restoring : Restoring code restorer next)
    (here : a.machine.rip = restorer) : k.exec code a = some (a.numbered next) := by
  rw [Delivery.exec, here, restoring.number]
  rfl

theorem Restoring.exec_call {next : Word} (restoring : Restoring code restorer next)
    (here : c.context = (a.numbered next).context) : k.exec code c = some (k.sigreturn c) := by
  rcases restoring.call with ⟨last, call⟩
  have rip : c.machine.rip = next := congrArg Context.rip here
  have rax : c.machine.regs .rax = 15 := by
    have regs : c.machine.regs = (a.numbered next).machine.regs := congrArg Context.regs here
    rw [regs]
    rfl
  rw [Delivery.exec, rip, call]
  exact if_pos rax

/-- A handler at its `ret` goes to the restorer, with its frame above the stack pointer. -/
theorem Delivery.Documented.ret (documented : k.Documented) (restores : (s.machine.proc.actions signo).Restores restorer)
    (kept : Set.EqOn h.mem (k.enter signo s).mem (k.frame s)) (rsp : h.machine.regs .rsp = k.addr s) :
    h.ret.machine.rip = restorer ∧ h.ret.machine.regs .rsp = k.addr s + 8 := by
  have first : window (k.addr s) 8 ⊆ k.frame s := fun _ near => lt_of_lt_of_le (mem_window.mp near) documented.word
  have word : load h.mem (k.addr s) = restorer := by
    rw [load_congr fun i hi => kept (first (add_mem_window _ hi (by decide))), documented.back,
      restores.restorer]
  refine ⟨?_, ?_⟩
  · change load h.machine.mem (h.machine.regs .rsp) = restorer
    rw [rsp]
    exact word
  · change h.machine.regs .rsp + 8 = k.addr s + 8
    rw [rsp]

/-- What the kernel takes up again is what was interrupted. -/
theorem Delivery.Documented.resumed (documented : k.Documented)
    (rsp : c.machine.regs .rsp = k.addr s + 8)
    (kept : Set.EqOn c.mem (k.enter signo s).mem (k.frame s ∪ live)) (apart : Disjoint (k.frame s) live) :
    Same live s (k.sigreturn c) := by
  have top : c.machine.regs .rsp - 8 = k.addr s := by
    rw [rsp]
    bv_omega
  have context : k.context c.mem (c.machine.regs .rsp - 8) = s.context := by
    rw [top]
    exact documented.saved signo s c.mem (kept.mono Set.subset_union_left)
  refine ⟨context, fun x inside => ?_⟩
  have outside : x ∉ k.frame s := fun near => apart.le_bot ⟨near, inside⟩
  exact (kept (.inr inside)).trans (documented.outside signo s outside)

/-- A handler that has come to its `ret`, whatever interrupts its way back. -/
theorem Delivery.Documented.returns {next : Word} (documented : k.Documented)
    (restoring : Restoring code restorer next) (deliverable : Deliverable restorer signo s)
    (apart : Disjoint (k.frame s) live) (rsp : h.machine.regs .rsp = k.addr s)
    (kept : Set.EqOn h.mem (k.enter signo s).mem (k.frame s ∪ live))
    (before : Same (k.frame s ∪ live) h.ret a) (between : Same (k.frame s ∪ live) (a.numbered next) c) :
    k.exec code a = some (a.numbered next) ∧ k.exec code c = some (k.sigreturn c) ∧
      Same live s (k.sigreturn c) := by
  rcases documented.ret deliverable.restores (kept.mono Set.subset_union_left) rsp with ⟨rip, top⟩
  have here : a.machine.rip = restorer := (congrArg Context.rip before.context).trans rip
  have at_top : c.machine.regs .rsp = k.addr s + 8 := by
    have regs : c.machine.regs = (a.numbered next).machine.regs := congrArg Context.regs between.context
    have same : a.machine.regs = h.ret.machine.regs := congrArg Context.regs before.context
    rw [regs, ← top, ← same]
    rfl
  have whole : Set.EqOn c.mem (k.enter signo s).mem (k.frame s ∪ live) :=
    (between.mem.trans before.mem).trans kept
  exact ⟨restoring.exec_number here, restoring.exec_call between.context,
    documented.resumed at_top whole apart⟩

/-- All signals in a run, by induction on how they are nested. -/
theorem Runs.steps {next : Word} (documented : k.Documented) (restoring : Restoring code restorer next)
    (runs : Runs k code restorer own live n s t) : Steps own live n s t := by
  induction runs with
  | refl => exact .refl (Same.refl _ _)
  | step moved kept _ ih => exact .step (Same.refl _ _) moved kept ih
  | @signal live n m signo s h a b c r t deliverable apart _ rsp _ first _ second _ handled before between rest =>
    have number : b = a.numbered next := by
      rcases documented.ret deliverable.restores (handled.mem.mono Set.subset_union_left) rsp with ⟨rip, -⟩
      have here : a.machine.rip = restorer := (congrArg Context.rip before.same.context).trans rip
      exact Option.some.inj (first.symm.trans (restoring.exec_number here))
    subst number
    rcases documented.returns restoring deliverable apart rsp handled.mem before.same between.same with
      ⟨-, call, same⟩
    cases second.symm.trans call
    exact same.steps rest

end Return

section Threads

variable {k : Delivery} {code : Code} {restorer behind : Word} {own : Thread → Thread → Prop}

/-- Handlers that return take nothing from the code that they interrupt but what they do to
memory: with them it makes its own steps, with its own registers, flags and blocked signals. And
every handler that has come to its `ret` does return. -/
theorem handlers_return (documented : k.Documented) (laid : Laid code restorer sysSigreturn behind) :
    (∀ live n s t, Runs k code restorer own live n s t → Steps own live n s t) ∧
      ∀ live m signo s h, Deliverable restorer signo s → Disjoint (k.frame s) live →
        Runs k code restorer own (k.frame s ∪ live) m (k.enter signo s) h →
        h.machine.regs .rsp = k.addr s → ∃ r, Runs k code restorer own live 0 s r ∧ Same live s r := by
  rcases restoring_of_laid laid with ⟨next, restoring⟩
  refine ⟨fun live n s t runs => runs.steps documented restoring, ?_⟩
  intro live m signo s h deliverable apart runs rsp
  have kept := (runs.steps documented restoring).mem
  rcases documented.returns restoring deliverable apart rsp kept (Same.refl _ _) (Same.refl _ _) with
    ⟨number, call, same⟩
  exact ⟨_, .signal deliverable apart runs rsp .refl number .refl call .refl, same⟩

end Threads

section Installed

variable {signo : Int} {restorer : Word}

theorem restores_or (handler flags mask : Word) :
    Action.Restores ⟨handler, flags ||| saRestorer, restorer, mask⟩ restorer := by
  refine ⟨?_, rfl⟩
  intro none
  have bit := congrArg (·.getLsbD 26) none
  simp [saRestorer] at bit

/-- The handlers that a program sets return to `sys_sigreturn`. -/
theorem sigaction_restores (f : SigactionFrame) {nact : Addr} (oact : Addr) (c : Lib) (settable : Settable signo)
    (passed : f.Passed nact) :
    ((sigaction restorer f signo nact oact c).2.proc.actions signo).Restores restorer := by
  rw [(sigaction_given restorer oact c settable passed).actions, Function.update_self]
  exact restores_or ..

theorem signal_restores (f : SignalFrame) (handler : Word) (c : Lib) (settable : Settable signo) :
    ((signal restorer f signo handler c).2.proc.actions signo).Restores restorer := by
  rw [(signal_effect restorer f handler c settable).actions, Function.update_self]
  exact restores_or ..

end Installed

section Sample

def Reg.index : Reg → Nat
  | .rax => 0 | .rbx => 1 | .rcx => 2 | .rdx => 3 | .rsi => 4 | .rdi => 5 | .rbp => 6 | .rsp => 7
  | .r8 => 8 | .r9 => 9 | .r10 => 10 | .r11 => 11 | .r12 => 12 | .r13 => 13 | .r14 => 14 | .r15 => 15

/-- The words of a frame: the restorer, the registers, `rip`, the flags and the blocked signals. -/
def frameWord (restorer : Word) (c : Context) (i : Nat) : Word :=
  ([restorer, c.regs .rax, c.regs .rbx, c.regs .rcx, c.regs .rdx, c.regs .rsi, c.regs .rdi, c.regs .rbp,
    c.regs .rsp, c.regs .r8, c.regs .r9, c.regs .r10, c.regs .r11, c.regs .r12, c.regs .r13, c.regs .r14,
    c.regs .r15, c.rip, c.flags, c.mask][i]?).getD 0

/-- A kernel with frames of 20 words below the 128 bytes that a function may use. -/
def plainDelivery : Delivery where
  size := 160
  addr s := s.machine.regs .rsp - 288
  enter signo s :=
    let act := s.machine.proc.actions signo
    let frame := s.machine.regs .rsp - 288
    let mem := splice s.mem frame 160 fun i => byte (frameWord act.restorer s.context (i / 8)) (i % 8)
    let mask := s.machine.proc.mask ||| act.mask ||| 1#64 <<< (signo.toNat - 1)
    { s with machine :=
      { regs := Function.update (Function.update s.machine.regs .rdi (BitVec.ofInt 64 signo)) .rsp frame
        rip := act.handler
        proc := { s.machine.proc with mem := mem, mask := mask } } }
  context m a := ⟨fun r => load m (slot a (1 + r.index)), load m (slot a 17), load m (slot a 18), load m (slot a 19)⟩

theorem load_frame {m m' : Addr → BitVec 8} {a : Addr} {word : Nat → Word} {i : Nat} (inside : i < 20)
    (same : Set.EqOn m' (splice m a 160 fun j => byte (word (j / 8)) (j % 8)) (window a 160)) :
    load m' (slot a i) = word i := by
  rw [load, ← ofBytes_byte (word i)]
  refine ofBytes_congr fun j hj => ?_
  have place : slot a i + BitVec.ofNat 64 j = a + BitVec.ofNat 64 (8 * i + j) := by
    rw [slot, BitVec.add_assoc, ← BitVec.ofNat_add]
  have near : a + BitVec.ofNat 64 (8 * i + j) ∈ window a 160 := add_mem_window a (by omega) (by decide)
  rw [place, same near, splice_add _ _ _ (by omega) (by decide)]
  have word_at : (8 * i + j) / 8 = i := by omega
  have byte_at : (8 * i + j) % 8 = j := by omega
  rw [word_at, byte_at]

theorem plainDelivery_documented : plainDelivery.Documented where
  word := by decide
  rsp _ _ := rfl
  handler _ _ := rfl
  outside signo s x out := by
    simp only [Thread.mem, Machine.mem, plainDelivery]
    exact splice_of_notMem out
  back signo s := by
    have first : plainDelivery.addr s = slot (plainDelivery.addr s) 0 := by simp [slot]
    rw [first]
    exact load_frame (by decide) fun _ _ => rfl
  saved signo s m same := by
    have word {i : Nat} (inside : i < 20) : load m (slot (plainDelivery.addr s) i) = _ := load_frame inside same
    have regs : (fun r : Reg => load m (slot (plainDelivery.addr s) (1 + r.index))) = s.machine.regs := by
      funext r
      cases r <;> exact word (by decide)
    change (⟨fun r : Reg => load m (slot (plainDelivery.addr s) (1 + r.index)), _, _, _⟩ : Context) = _
    rw [regs]
    congr 1
    · exact word (by decide)
    · exact word (by decide)
    · exact word (by decide)

/-- `sys_sigreturn` at `0x500`. -/
def sigreturnAt : Code := fun a =>
  if a = 0x500 then some (.plain (.imm .rax 15), 0x507)
  else if a = 0x507 then some (.plain .syscall, 0x509)
  else if a = 0x509 then some (.plain .ret, 0x50a)
  else none

/-- A thread whose handlers are all at `0x200`. -/
def interrupted : Thread where
  machine :=
    { regs := fun _ => 0x7000
      rip := 0x100
      proc := { mem := fun _ => 0, mask := 0, actions := fun _ => ⟨0x200, saRestorer, 0x500, 0⟩ } }
  flags := 0x202

/-- Every instruction of the thread has one byte. -/
def advance (s t : Thread) : Prop := t = { s with machine := { s.machine with rip := s.machine.rip + 1 } }

/-- `SIGALRM`, and `SIGINT` in its handler. -/
theorem handlers_return_nested : ∃ s t r, Deliverable 0x500 14 s ∧ Deliverable 0x500 2 t ∧
    Runs plainDelivery sigreturnAt 0x500 advance (plainDelivery.frame s ∪ ∅) 1 (plainDelivery.enter 14 s) t ∧
    Runs plainDelivery sigreturnAt 0x500 advance ∅ 0 s r ∧ Same ∅ s r ∧ Steps advance ∅ 0 s r := by
  let s := interrupted
  let first := plainDelivery.enter 14 s
  let t : Thread := { first with machine := { first.machine with rip := 0x201 } }
  have laid : Laid sigreturnAt 0x500 sysSigreturn 0x50a := ⟨0x507, rfl, 0x509, rfl, 0x50a, rfl, rfl⟩
  have restores : Action.Restores ⟨0x200, saRestorer, 0x500, 0⟩ 0x500 := ⟨by decide, rfl⟩
  have outer : Deliverable 0x500 14 s := ⟨by decide, by decide, ⟨by decide, by decide⟩, restores⟩
  have inner : Deliverable 0x500 2 t := ⟨by decide, by decide, ⟨by decide, by decide⟩, restores⟩
  have moved : advance first t := rfl
  have apart : Disjoint (plainDelivery.frame t) (plainDelivery.frame s ∪ ∅) := by
    rw [Set.union_empty]
    refine Set.disjoint_left.mpr fun x near far => ?_
    have lower : plainDelivery.addr t = 0x6dc0 := by decide
    have upper : plainDelivery.addr s = 0x6ee0 := by decide
    rw [Delivery.frame, mem_window, lower] at near
    rw [Delivery.frame, mem_window, upper] at far
    change _ < 160 at near far
    bv_omega
  rcases handlers_return plainDelivery_documented laid with ⟨steps, returns⟩
  rcases returns _ 0 2 t _ inner apart .refl rfl with ⟨back, again, same⟩
  have whole : Runs plainDelivery sigreturnAt 0x500 advance (plainDelivery.frame s ∪ ∅) 1 first back :=
    .step moved (fun _ _ => rfl) again
  have rsp : back.machine.regs .rsp = plainDelivery.addr s := congrFun (congrArg Context.regs same.context) .rsp
  rcases returns ∅ 1 14 s back outer (Set.disjoint_empty _) whole rsp with ⟨r, runs, still⟩
  exact ⟨s, t, r, outer, inner, .step moved (fun _ _ => rfl) .refl, runs, still, steps _ _ _ _ runs⟩

end Sample

end UnixProgramming.Libmini
