import UnixProgramming.Foundation.Transition
import UnixProgramming.Libmini.Machine

/-!
# `setjmp` and `longjmp`

`setjmp` writes nine words of `env` and, like `longjmp`, uses the two words below
the stack pointer that its caller gets back. As long as `env` is not in these two
words the registers come back, from any state that has left `env` alone. The
signal mask does not: both system calls ask for a set of 32 bytes and are refused.
-/

namespace UnixProgramming.Libmini

open Memory Transition

def setjmp : List Instr :=
  [.pop .rsi, .store .rdi 0 .rbx, .store .rdi 8 .rsp, .push .rsi, .store .rdi 16 .rbp,
    .store .rdi 24 .r12, .store .rdi 32 .r13, .store .rdi 40 .r14, .store .rdi 48 .r15,
    .store .rdi 56 .rsi, .push .rdi, .imm .rax 14, .imm .rdi 0, .imm .rsi 0, .imm .rdx 0,
    .imm .r10 32, .syscall, .pop .rdi, .store .rdi 64 .rdx, .imm .rax 0, .ret]

def longjmp : List Instr :=
  [.load .rbx .rdi 0, .load .rsp .rdi 8, .load .rbp .rdi 16, .load .r12 .rdi 24,
    .load .r13 .rdi 32, .load .r14 .rdi 40, .load .r15 .rdi 48, .push .rdi, .push .rsi,
    .imm .rax 14, .load .rsi .rdi 64, .imm .rdi 1, .imm .rdx 0, .imm .r10 32, .syscall,
    .pop .rax, .pop .rdi, .jmp .rdi 56, .ret]

/-- A kernel whose `rt_sigprocmask`, given no place for the old set, changes only `rax`,
`rcx` and `r11` of what the caller sees. -/
structure Frugal (kernel : Kernel) : Prop where
  regs : ∀ s r, s.regs .rax = 14 → r ≠ .rax → r ≠ .rcx → r ≠ .r11 → (kernel s).regs r = s.regs r
  mem : ∀ s, s.regs .rax = 14 → s.regs .rdx = 0 → (kernel s).mem = s.mem

/-- The stack pointer of the caller once `setjmp` has returned. -/
def Machine.resumed (s : Machine) : Word := s.regs .rsp + 8

def Machine.env (s : Machine) : Addr := s.regs .rdi

/-- Where `setjmp` returns to. -/
def Machine.back (s : Machine) : Word := load s.mem (s.regs .rsp)

/-- The address of the `i`th word pushed below `top`. -/
def pushed (top : Addr) (i : Nat) : Addr := top - BitVec.ofNat 64 (8 * i)

/-- The two words below the resumed stack pointer, which both routines use. -/
def scratch (top : Addr) : Set Addr := window (pushed top 2) 16

/-- What `setjmp` writes, in this order. -/
def saves (s : Machine) : List (Addr × Word) :=
  [(slot s.env 0, s.regs .rbx), (slot s.env 1, s.resumed), (pushed s.resumed 1, s.back),
    (slot s.env 2, s.regs .rbp), (slot s.env 3, s.regs .r12), (slot s.env 4, s.regs .r13),
    (slot s.env 5, s.regs .r14), (slot s.env 6, s.regs .r15), (slot s.env 7, s.back),
    (pushed s.resumed 2, s.env), (slot s.env 8, 0)]

section Layout

variable {env top : Addr}

theorem pushed_one : pushed top 1 = pushed top 2 + BitVec.ofNat 64 8 := by
  unfold pushed
  bv_omega

theorem pushed_two : pushed top 2 = pushed top 2 + BitVec.ofNat 64 0 := by simp

theorem pushed_one_subset : window (pushed top 1) 8 ⊆ scratch top :=
  pushed_one ▸ window_subset (pushed top 2) (by decide) (by decide)

theorem pushed_two_subset : window (pushed top 2) 8 ⊆ scratch top :=
  fun _ near => lt_of_lt_of_le near (show 8 ≤ 16 by decide)

theorem separate_pushed : Separate (pushed top 1) (pushed top 2) := by
  have apart := separate_offsets (pushed top 2) (p := 8) (q := 0) (by decide) (by decide) (by decide)
  rwa [← pushed_one, ← pushed_two] at apart

/-- `env` lies above the resumed stack pointer or outside the stack. -/
def Clear (env top : Addr) : Prop := ∀ x ∈ window env 72, x ∉ scratch top

theorem Clear.upper (h : Clear env top) {i : Nat} (hi : i < 9) : Separate (slot env i) (pushed top 1) :=
  fun x near far => h x (slot_subset env (n := 9) hi (by decide) near) (pushed_one_subset far)

theorem Clear.lower (h : Clear env top) {i : Nat} (hi : i < 9) : Separate (slot env i) (pushed top 2) :=
  fun x near far => h x (slot_subset env (n := 9) hi (by decide) near) (pushed_two_subset far)

theorem saves_apart {s : Machine} (h : Clear s.env s.resumed) :
    (saves s).Pairwise fun p q => Separate p.1 q.1 := by
  have slots {i j : Nat} (other : i ≠ j) (hi : i < 9) (hj : j < 9) :
      Separate (slot s.env i) (slot s.env j) := separate_slots _ other (by omega) (by omega)
  simp [saves, slots, h.upper, h.lower, (h.upper _).symm, (h.lower _).symm, separate_pushed]

end Layout

section Setjmp

variable {kernel : Kernel} {s : Machine}

/-- `setjmp` up to its system call. -/
def Machine.saved (s : Machine) : Machine := Machine.run id (setjmp.take 16) s

theorem saved_mem (s : Machine) : s.saved.mem = stores s.mem ((saves s).take 10) := by
  have twice : s.regs .rsp + 8 - 8 - 8 = pushed s.resumed 2 := by
    unfold pushed Machine.resumed
    bv_omega
  exact congrArg (fun a => store (stores s.mem ((saves s).take 9)) a s.env) twice

theorem saved_rsp (s : Machine) : s.saved.regs .rsp = pushed s.resumed 2 := by
  change s.regs .rsp + 8 - 8 - 8 = pushed s.resumed 2
  unfold pushed Machine.resumed
  bv_omega

/-- The registers that a called function gives back. -/
def calleeSaved : List Reg := [.rbx, .rbp, .r12, .r13, .r14, .r15]

theorem forall_calleeSaved {P : Reg → Prop} : (∀ r ∈ calleeSaved, P r) ↔
    P .rbx ∧ P .rbp ∧ P .r12 ∧ P .r13 ∧ P .r14 ∧ P .r15 := by
  simp [calleeSaved]

/-- None of them is changed by a system call. -/
theorem calleeSaved_spared : ∀ r ∈ calleeSaved, r ≠ .rax ∧ r ≠ .rcx ∧ r ≠ .r11 := by decide

theorem saved_regs (s : Machine) : ∀ r ∈ calleeSaved, s.saved.regs r = s.regs r :=
  forall_calleeSaved.mpr ⟨rfl, rfl, rfl, rfl, rfl, rfl⟩

structure Returned (s f : Machine) : Prop where
  rip : f.rip = s.back
  rax : f.regs .rax = 0
  rsp : f.regs .rsp = s.resumed
  kept : ∀ r ∈ calleeSaved, f.regs r = s.regs r
  mem : f.mem = stores s.mem (saves s)

/-- The rest of `setjmp`, from the end `q` of its system call. -/
def Machine.finished (q : Machine) : Machine :=
  Machine.run id [.pop .rdi, .store .rdi 64 .rdx, .imm .rax 0, .ret] q

theorem run_setjmp (kernel : Kernel) (s : Machine) :
    Machine.run kernel setjmp s = (kernel s.saved).finished := rfl

theorem setjmp_returned (frugal : Frugal kernel) (h : Clear s.env s.resumed) :
    Returned s (Machine.run kernel setjmp s) := by
  have mem : (kernel s.saved).mem = stores s.mem ((saves s).take 10) :=
    (frugal.mem s.saved rfl rfl).trans (saved_mem s)
  have kept {r} (h1 : r ≠ .rax) (h2 : r ≠ .rcx) (h3 : r ≠ .r11) :
      (kernel s.saved).regs r = s.saved.regs r := frugal.regs s.saved r rfl h1 h2 h3
  have rsp : (kernel s.saved).regs .rsp = pushed s.resumed 2 :=
    (kept (by decide) (by decide) (by decide)).trans (saved_rsp s)
  have rdx : (kernel s.saved).regs .rdx = 0 := kept (by decide) (by decide) (by decide)
  have popped : load (kernel s.saved).mem ((kernel s.saved).regs .rsp) = s.env := by
    rw [mem, rsp]
    exact load_stores ((saves_apart h).sublist (List.take_sublist _ _)) (by simp [saves])
  have all : (kernel s.saved).finished.mem = stores s.mem (saves s) := by
    change store (kernel s.saved).mem
      (load (kernel s.saved).mem ((kernel s.saved).regs .rsp) + BitVec.ofNat 64 64)
      ((kernel s.saved).regs .rdx) = _
    rw [popped, rdx, mem]
    rfl
  have up : (kernel s.saved).regs .rsp + 8 = pushed s.resumed 1 := by
    rw [rsp]
    unfold pushed
    bv_omega
  rw [run_setjmp]
  refine ⟨?_, rfl, ?_, fun r listed => ?_, all⟩
  · change load (kernel s.saved).finished.mem ((kernel s.saved).regs .rsp + 8) = s.back
    rw [all, up]
    exact load_stores (saves_apart h) (by simp [saves])
  · change (kernel s.saved).regs .rsp + 8 + 8 = s.resumed
    rw [rsp]
    unfold pushed
    bv_omega
  · have same : ∀ r ∈ calleeSaved, (kernel s.saved).finished.regs r = (kernel s.saved).regs r :=
      forall_calleeSaved.mpr ⟨rfl, rfl, rfl, rfl, rfl, rfl⟩
    rcases calleeSaved_spared r listed with ⟨rax, rcx, r11⟩
    rw [same r listed, kept rax rcx r11, saved_regs s r listed]

end Setjmp

section Longjmp

variable {kernel : Kernel} {s t : Machine}

/-- `env` still holds what `setjmp` put there when it was called in `s`. -/
def Intact (s : Machine) (m : Addr → BitVec 8) : Prop :=
  ∀ x ∈ window s.env 72, m x = stores s.mem (saves s) x

theorem Intact.load {m : Addr → BitVec 8} (intact : Intact s m) (h : Clear s.env s.resumed) {i : Nat}
    {w : Word} (hi : i < 9) (listed : (slot s.env i, w) ∈ saves s) : load m (slot s.env i) = w := by
  have same : Memory.load m (slot s.env i) = Memory.load (stores s.mem (saves s)) (slot s.env i) :=
    load_congr fun k hk => intact _ (slot_subset s.env (n := 9) hi (by decide)
      (add_mem_window _ hk (by decide)))
  rw [same]
  exact load_stores (saves_apart h) listed

/-- `longjmp` up to its system call. -/
def Machine.restored (t : Machine) : Machine := Machine.run id (longjmp.take 14) t

/-- The rest of `longjmp`, from the end `q` of its system call. -/
def Machine.landed (q : Machine) : Machine :=
  Machine.run id [.pop .rax, .pop .rdi, .jmp .rdi 56, .ret] q

/-- What `longjmp`, called in `t`, has to leave for the `setjmp` called in `s`. -/
structure Resumed (s t f : Machine) : Prop where
  rip : f.rip = s.back
  eax : (f.regs .rax).setWidth 32 = (t.regs .rsi).setWidth 32
  rsp : f.regs .rsp = s.resumed
  kept : ∀ r ∈ calleeSaved, f.regs r = s.regs r
  env : ∀ x ∈ window s.env 72, f.mem x = t.mem x
  mem : ∀ x, x ∉ scratch s.resumed → f.mem x = t.mem x

/-- The two words that `longjmp`, called in `t`, pushes. -/
def spills (s t : Machine) : List (Addr × Word) :=
  [(pushed s.resumed 1, s.env), (pushed s.resumed 2, t.regs .rsi)]

theorem spills_mem {x : Addr} (out : x ∉ scratch s.resumed) : stores t.mem (spills s t) x = t.mem x := by
  refine stores_of_notMem fun p listed near => out ?_
  simp only [spills, List.mem_cons, List.not_mem_nil, or_false] at listed
  obtain rfl | rfl := listed
  · exact pushed_one_subset near
  · exact pushed_two_subset near

theorem restored_mem (at_env : t.env = s.env) (top : load t.mem (slot s.env 1) = s.resumed) :
    t.restored.mem = stores t.mem (spills s t) := by
  have pushes : t.restored.mem = stores t.mem [(load t.mem (slot t.env 1) - 8, t.env),
      (load t.mem (slot t.env 1) - 8 - 8, t.regs .rsi)] := rfl
  have twice : s.resumed - 8 - 8 = pushed s.resumed 2 := by
    unfold pushed
    bv_omega
  rw [pushes, at_env, top, twice]
  rfl

theorem restored_rsp (at_env : t.env = s.env) (top : load t.mem (slot s.env 1) = s.resumed) :
    t.restored.regs .rsp = pushed s.resumed 2 := by
  have pushes : t.restored.regs .rsp = load t.mem (slot t.env 1) - 8 - 8 := rfl
  rw [pushes, at_env, top]
  unfold pushed
  bv_omega

theorem restored_regs (h : Clear s.env s.resumed) (at_env : t.env = s.env) (intact : Intact s t.mem) :
    ∀ r ∈ calleeSaved, t.restored.regs r = s.regs r := by
  have word {i : Nat} {w : Word} (hi : i < 9) (listed : (slot s.env i, w) ∈ saves s) :
      load t.mem (slot t.env i) = w := at_env ▸ intact.load h hi listed
  refine forall_calleeSaved.mpr ⟨?_, ?_, ?_, ?_, ?_, ?_⟩
  · exact word (i := 0) (by decide) (by simp [saves])
  · exact word (i := 2) (by decide) (by simp [saves])
  · exact word (i := 3) (by decide) (by simp [saves])
  · exact word (i := 4) (by decide) (by simp [saves])
  · exact word (i := 5) (by decide) (by simp [saves])
  · exact word (i := 6) (by decide) (by simp [saves])

theorem run_longjmp (kernel : Kernel) (t : Machine) :
    Machine.run kernel longjmp t = (kernel t.restored).landed := rfl

theorem longjmp_resumed (frugal : Frugal kernel) (h : Clear s.env s.resumed) (at_env : t.env = s.env)
    (intact : Intact s t.mem) : Resumed s t (Machine.run kernel longjmp t) := by
  have top : load t.mem (slot s.env 1) = s.resumed := intact.load h (by decide) (by simp [saves])
  have mem : (kernel t.restored).mem = stores t.mem (spills s t) :=
    (frugal.mem t.restored rfl rfl).trans (restored_mem at_env top)
  have kept {r} (h1 : r ≠ .rax) (h2 : r ≠ .rcx) (h3 : r ≠ .r11) :
      (kernel t.restored).regs r = t.restored.regs r := frugal.regs t.restored r rfl h1 h2 h3
  have rsp : (kernel t.restored).regs .rsp = pushed s.resumed 2 :=
    (kept (by decide) (by decide) (by decide)).trans (restored_rsp at_env top)
  have up : (kernel t.restored).regs .rsp + 8 = pushed s.resumed 1 := by
    rw [rsp]
    unfold pushed
    bv_omega
  have apart : (spills s t).Pairwise fun p q => Separate p.1 q.1 := by
    simp [spills, separate_pushed]
  -- the two pops give back the arguments
  have value : load (kernel t.restored).mem ((kernel t.restored).regs .rsp) = t.regs .rsi := by
    rw [mem, rsp]
    exact load_stores apart (by simp [spills])
  have target : load (kernel t.restored).mem ((kernel t.restored).regs .rsp + 8) = s.env := by
    rw [mem, up]
    exact load_stores apart (by simp [spills])
  have back : load (kernel t.restored).mem (slot s.env 7) = s.back := by
    rw [mem, load_stores_of_separate (by simp [spills, h.upper, h.lower])]
    exact intact.load h (by decide) (by simp [saves])
  rw [run_longjmp]
  refine ⟨?_, ?_, ?_, fun r listed => ?_, fun x near => ?_, fun x out => ?_⟩
  · change load (kernel t.restored).mem
      (slot (load (kernel t.restored).mem ((kernel t.restored).regs .rsp + 8)) 7) = s.back
    rw [target, back]
  · exact congrArg (BitVec.setWidth 32) value
  · change (kernel t.restored).regs .rsp + 8 + 8 = s.resumed
    rw [up]
    unfold pushed
    bv_omega
  · have same : ∀ r ∈ calleeSaved, (kernel t.restored).landed.regs r = (kernel t.restored).regs r :=
      forall_calleeSaved.mpr ⟨rfl, rfl, rfl, rfl, rfl, rfl⟩
    rcases calleeSaved_spared r listed with ⟨rax, rcx, r11⟩
    rw [same r listed, kept rax rcx r11, restored_regs h at_env intact r listed]
  · exact (congrFun mem x).trans (spills_mem (h x near))
  · exact (congrFun mem x).trans (spills_mem out)

end Longjmp

section Later

inductive Event where
  /-- anything that leaves `env` alone -/
  | work
  /-- `longjmp` on `env` -/
  | jump

/-- What may happen once `setjmp` has filled `env`. -/
def later (kernel : Kernel) (env : Addr) : Event → Machine → Machine → Prop
  | .work, t, t' => ∀ x ∈ window env 72, t'.mem x = t.mem x
  | .jump, t, t' => t.env = env ∧ t' = Machine.run kernel longjmp t

theorem sigprocmaskCall_frugal (clobber : Machine → Word × Word) : Frugal (sigprocmaskCall clobber) where
  regs s r _ h1 h2 h3 := by
    simp only [sigprocmaskCall, Machine.set]
    rw [Function.update_of_ne h3, Function.update_of_ne h2, Function.update_of_ne h1]
  mem s _ none := by
    simp only [sigprocmaskCall, Machine.mem, rtSigprocmask, none, if_true]
    split
    · rfl
    · cases (if s.regs .rsi = 0 then some s.proc.mask else
        changeMask (s.regs .rdi) (load s.proc.mem (s.regs .rsi)) s.proc.mask) <;> rfl

variable {kernel : Kernel} {s : Machine}

theorem Intact.later (frugal : Frugal kernel) (h : Clear s.env s.resumed) {e : Event} {t t' : Machine}
    (intact : Intact s t.mem) (step : later kernel s.env e t t') : Intact s t'.mem := by
  intro x near
  rw [← intact x near]
  cases e with
  | work => exact step x near
  | jump =>
    obtain ⟨at_env, rfl⟩ := step
    exact (longjmp_resumed frugal h at_env intact).env x near

theorem Intact.run (frugal : Frugal kernel) (h : Clear s.env s.resumed) {es : List Event} {t : Machine}
    (run : Run (Libmini.later kernel s.env) es (Machine.run kernel setjmp s) t) : Intact s t.mem :=
  run.invariant (I := fun t => Intact s t.mem) (fun _ _ _ kept step => kept.later frugal h step)
    fun x _ => congrFun (setjmp_returned frugal h).mem x

/-- `setjmp` returns once, and every `longjmp` on its `env` takes the caller back to where it
returned, however often this happens. -/
theorem setjmp_longjmp (frugal : Frugal kernel) (h : Clear s.env s.resumed) :
    Returned s (Machine.run kernel setjmp s) ∧
      ∀ es t, Run (later kernel s.env) es (Machine.run kernel setjmp s) t → t.env = s.env →
        Resumed s t (Machine.run kernel longjmp t) :=
  ⟨setjmp_returned frugal h,
    fun _ _ run at_env => longjmp_resumed frugal h at_env (.run frugal h run)⟩

/-- A process about to call `setjmp` with `env` at `0x8000` and the stack below it. -/
def caller (mask : Word) : Machine where
  regs
    | .rdi => 0x8000
    | .rsp => 0x7ff0
    | .rbx => 3
    | _ => 0
  rip := 0x401000
  proc := { mem := store (fun _ => 0) 0x7ff0 0x401005, mask := mask, actions := fun _ => ⟨0, 0, 0, 0⟩ }

theorem caller_clear (mask : Word) : Clear (caller mask).env (caller mask).resumed := by
  intro x near far
  have inEnv : (x - 0x8000#64).toNat < 72 := near
  have inScratch : (x - (0x7ff0#64 + 8#64 - 16#64)).toNat < 16 := far
  bv_omega

/-- The arguments of a call `longjmp(env, v)`. -/
def Machine.arguments (t : Machine) (env : Addr) (v : Word) : Machine := (t.set .rdi env).set .rsi v

theorem Machine.arguments_later (kernel : Kernel) (t : Machine) (env : Addr) (v : Word) :
    later kernel env .work t (t.arguments env v) := fun _ _ => rfl

/-- The kernel when nothing else is done to `rcx` and `r11`. -/
def quiet : Kernel := sigprocmaskCall fun _ => (0, 0)

theorem setjmp_longjmp_caller :
    let first := (Machine.run quiet setjmp (caller 0)).arguments 0x8000 7
    let again := (Machine.run quiet longjmp first).arguments 0x8000 9
    Resumed (caller 0) again (Machine.run quiet longjmp again) :=
  (setjmp_longjmp (sigprocmaskCall_frugal _) (caller_clear 0)).2 [.work, .jump, .work] _
    (.cons (Machine.arguments_later _ _ 0x8000 7)
      (.cons ⟨rfl, rfl⟩ (.cons (Machine.arguments_later _ _ 0x8000 9) .nil))) rfl

end Later

end UnixProgramming.Libmini
