import UnixProgramming.Libmini.Jump

/-!
# Several jump buffers

A program calls `setjmp` on any number of buffers, again on a buffer that is filled, and
`longjmp` on any of them, in any order. Next to it goes a record of the state in which the
last `setjmp` on each buffer was called; a buffer in a frame that is given up is dropped
from it.
-/

namespace UnixProgramming.Libmini

open Memory Transition

/-- A machine, and for each buffer the state at the last `setjmp` on it. -/
structure Buffers where
  machine : Machine
  last : Addr → Option Machine

inductive JumpEvent where
  | work
  | drop (env : Addr)
  | set
  | jump

/-- What a program with such buffers does: anything that leaves them alone, and calls of the two
routines, whose two words of the stack are not in a buffer. -/
inductive JumpStep (kernel : Kernel) : JumpEvent → Buffers → Buffers → Prop where
  | work {b t} : (∀ env s, b.last env = some s → ∀ x ∈ window env 72, t.mem x = b.machine.mem x) →
      JumpStep kernel .work b ⟨t, b.last⟩
  | drop {b} (env) : JumpStep kernel (.drop env) b ⟨b.machine, Function.update b.last env none⟩
  | set {b} : Clear b.machine.env b.machine.resumed →
      (∀ env s, b.last env = some s → env ≠ b.machine.env → Clear env b.machine.resumed ∧
        ∀ x ∈ window env 72, x ∉ window b.machine.env 72) →
      JumpStep kernel .set b ⟨Machine.run kernel setjmp b.machine,
        Function.update b.last b.machine.env (some b.machine)⟩
  | jump {b s} : b.last b.machine.env = some s →
      (∀ env s', b.last env = some s' → Clear env s.resumed) →
      JumpStep kernel .jump b ⟨Machine.run kernel longjmp b.machine, b.last⟩

/-- What the next call does: `setjmp` returns 0, and `longjmp` goes to where the last `setjmp`
on the buffer was called. -/
def JumpEvent.Honours (kernel : Kernel) (b : Buffers) : JumpEvent → Prop
  | .set => Returned b.machine (Machine.run kernel setjmp b.machine)
  | .jump => ∀ s, b.last b.machine.env = some s →
      Resumed s b.machine (Machine.run kernel longjmp b.machine)
  | .work | .drop _ => True

/-- Each buffer holds what the last `setjmp` on it has put there. -/
def Buffers.Filled (b : Buffers) : Prop :=
  ∀ env s, b.last env = some s → s.env = env ∧ Clear s.env s.resumed ∧ Intact s b.machine.mem

section Runs

variable {kernel : Kernel} {b b' : Buffers} {e : JumpEvent} {es : List JumpEvent} {s : Machine}

/-- `setjmp` writes nothing but its buffer and its two words of the stack. -/
theorem stores_saves {x : Addr} (outside : x ∉ window s.env 72) (off : x ∉ scratch s.resumed) :
    stores s.mem (saves s) x = s.mem x := by
  refine stores_of_notMem fun p listed near => ?_
  have field {i : Nat} (hi : i < 9) : x ∉ window (slot s.env i) 8 :=
    fun inside => outside (slot_subset s.env (n := 9) hi (by decide) inside)
  have first : x ∉ window (pushed s.resumed 1) 8 := fun inside => off (pushed_one_subset inside)
  have second : x ∉ window (pushed s.resumed 2) 8 := fun inside => off (pushed_two_subset inside)
  simp only [saves, List.mem_cons, List.not_mem_nil, or_false] at listed
  rcases listed with rfl | rfl | rfl | rfl | rfl | rfl | rfl | rfl | rfl | rfl | rfl
  · exact field (by decide) near
  · exact field (by decide) near
  · exact first near
  · exact field (by decide) near
  · exact field (by decide) near
  · exact field (by decide) near
  · exact field (by decide) near
  · exact field (by decide) near
  · exact field (by decide) near
  · exact second near
  · exact field (by decide) near

theorem Buffers.Filled.honours (frugal : Frugal kernel) (filled : b.Filled)
    (step : JumpStep kernel e b b') : e.Honours kernel b := by
  cases step with
  | work => trivial
  | drop => trivial
  | set clear => exact setjmp_returned frugal clear
  | jump =>
    intro s armed
    rcases filled _ s armed with ⟨at_env, clear, intact⟩
    exact longjmp_resumed frugal clear at_env.symm intact

theorem Buffers.Filled.step (frugal : Frugal kernel) (filled : b.Filled)
    (step : JumpStep kernel e b b') : b'.Filled := by
  have honours := filled.honours frugal step
  cases step with
  | work kept =>
    intro env s armed
    rcases filled env s armed with ⟨at_env, clear, intact⟩
    refine ⟨at_env, clear, fun x near => ?_⟩
    rw [at_env] at near
    rw [kept env s armed x near]
    exact intact x (at_env ▸ near)
  | drop env =>
    intro env' s armed
    dsimp only at armed ⊢
    by_cases dropped : env' = env
    · rw [dropped, Function.update_self] at armed
      cases armed
    · rw [Function.update_of_ne dropped] at armed
      exact filled env' s armed
  | set clear apart =>
    intro env s armed
    dsimp only at armed ⊢
    have returned : Returned b.machine (Machine.run kernel setjmp b.machine) := honours
    by_cases again : env = b.machine.env
    · rw [again, Function.update_self] at armed
      obtain rfl := Option.some.inj armed
      exact ⟨again.symm, clear, fun x _ => congrFun returned.mem x⟩
    · rw [Function.update_of_ne again] at armed
      rcases filled env s armed with ⟨at_env, clear', intact⟩
      rcases apart env s armed again with ⟨off, outside⟩
      refine ⟨at_env, clear', fun x near => ?_⟩
      rw [at_env] at near
      rw [congrFun returned.mem x, stores_saves (outside x near) (off x near)]
      exact intact x (at_env ▸ near)
  | @jump b s armed apart =>
    intro env s' armed'
    have resumed : Resumed s b.machine (Machine.run kernel longjmp b.machine) := honours s armed
    rcases filled env s' armed' with ⟨at_env, clear, intact⟩
    refine ⟨at_env, clear, fun x near => ?_⟩
    rw [resumed.mem x (apart env s' armed' x (at_env ▸ near))]
    exact intact x near

/-- However many buffers there are, and however often each of them is filled and used: every
`setjmp` returns 0, and every `longjmp` takes the program back to the last `setjmp` on its
buffer. -/
theorem buffers_resumed (frugal : Frugal kernel) {t : Machine}
    (run : Run (JumpStep kernel) es ⟨t, fun _ => none⟩ b) :
    Run (fun e b b' => JumpStep kernel e b b' ∧ e.Honours kernel b) es ⟨t, fun _ => none⟩ b ∧
      ∀ e b', JumpStep kernel e b b' → e.Honours kernel b := by
  have empty : Buffers.Filled ⟨t, fun _ => none⟩ := fun _ _ none => by cases none
  refine ⟨run.upgrade (I := Buffers.Filled) (fun e b b' filled step => ?_) empty, fun e b' step => ?_⟩
  · exact ⟨filled.step frugal step, step, filled.honours frugal step⟩
  · have filled := run.invariant (I := Buffers.Filled)
      (fun _ _ _ filled step => filled.step frugal step) empty
    exact filled.honours frugal step

/-- The caller of `setjmp` on a second buffer, once the first call has come back. -/
def second : Machine :=
  ((Machine.run quiet setjmp (caller 0)).arguments 0x8100 0).set .rsp 0x7ff0

/-- The record once both buffers are filled. -/
def bothFilled : Addr → Option Machine :=
  Function.update (Function.update (fun _ => none) 0x8000 (some (caller 0))) 0x8100 (some second)

theorem bothFilled_cases {env : Addr} {s : Machine} (armed : bothFilled env = some s) :
    (env = 0x8000 ∨ env = 0x8100) ∧ s.resumed = 0x7ff8 := by
  unfold bothFilled at armed
  by_cases upper : env = 0x8100
  · rw [upper, Function.update_self] at armed
    obtain rfl := Option.some.inj armed
    exact ⟨.inr upper, by decide +kernel⟩
  · rw [Function.update_of_ne upper] at armed
    by_cases lower : env = 0x8000
    · rw [lower, Function.update_self] at armed
      obtain rfl := Option.some.inj armed
      exact ⟨.inl lower, by decide +kernel⟩
    · rw [Function.update_of_ne lower] at armed
      cases armed

theorem clear_of_high {env : Addr} (high : env = 0x8000 ∨ env = 0x8100) : Clear env 0x7ff8 := by
  intro x near far
  rw [scratch, mem_window, pushed] at far
  rw [mem_window] at near
  rcases high with rfl | rfl <;> bv_omega

/-- Both buffers are filled, and `longjmp` is called on the first and then on the second. -/
theorem buffers_resumed_second :
    let first := (Machine.run quiet setjmp second).arguments 0x8000 7
    let again := (Machine.run quiet longjmp first).arguments 0x8100 9
    Resumed second again (Machine.run quiet longjmp again) := by
  intro first again
  have frugal : Frugal quiet := sigprocmaskCall_frugal _
  have top : second.resumed = 0x7ff8 := by decide +kernel
  have apart (env : Addr) (s : Machine) (armed : bothFilled env = some s) : Clear env 0x7ff8 :=
    clear_of_high (bothFilled_cases armed).1
  have lower : JumpStep quiet .set ⟨caller 0, fun _ => none⟩
      ⟨Machine.run quiet setjmp (caller 0), Function.update (fun _ => none) 0x8000 (some (caller 0))⟩ :=
    .set (b := ⟨caller 0, _⟩) (caller_clear 0) fun _ _ none => by cases none
  have away : JumpStep quiet .work
      ⟨Machine.run quiet setjmp (caller 0), Function.update (fun _ => none) 0x8000 (some (caller 0))⟩
      ⟨second, Function.update (fun _ => none) 0x8000 (some (caller 0))⟩ :=
    .work (b := ⟨Machine.run quiet setjmp (caller 0), _⟩) fun _ _ _ _ _ => rfl
  have upper : JumpStep quiet .set ⟨second, Function.update (fun _ => none) 0x8000 (some (caller 0))⟩
      ⟨Machine.run quiet setjmp second, bothFilled⟩ := by
    refine .set (b := ⟨second, _⟩) (by rw [top]; exact clear_of_high (.inr rfl)) fun env s armed _ => ?_
    dsimp only at armed ⊢
    by_cases here : env = 0x8000
    · rw [here, top]
      refine ⟨clear_of_high (.inl rfl), fun x near far => ?_⟩
      have far' : x ∈ window 0x8100 72 := far
      rw [mem_window] at near far'
      bv_omega
    · rw [Function.update_of_ne here] at armed
      cases armed
  have ready : JumpStep quiet .work ⟨Machine.run quiet setjmp second, bothFilled⟩ ⟨first, bothFilled⟩ :=
    .work (b := ⟨Machine.run quiet setjmp second, bothFilled⟩) fun _ _ _ _ _ => rfl
  have back : JumpStep quiet .jump ⟨first, bothFilled⟩ ⟨Machine.run quiet longjmp first, bothFilled⟩ :=
    .jump (b := ⟨first, bothFilled⟩) (s := caller 0) rfl apart
  have forth : JumpStep quiet .work ⟨Machine.run quiet longjmp first, bothFilled⟩ ⟨again, bothFilled⟩ :=
    .work (b := ⟨Machine.run quiet longjmp first, bothFilled⟩) fun _ _ _ _ _ => rfl
  have run : Run (JumpStep quiet) [.set, .work, .set, .work, .jump, .work] ⟨caller 0, fun _ => none⟩
      ⟨again, bothFilled⟩ :=
    .cons lower (.cons away (.cons upper (.cons ready (.cons back (.single forth)))))
  have jump : JumpStep quiet .jump ⟨again, bothFilled⟩ ⟨Machine.run quiet longjmp again, bothFilled⟩ :=
    .jump (b := ⟨again, bothFilled⟩) (s := second) rfl fun env s armed => top ▸ apart env s armed
  exact (buffers_resumed frugal run).2 .jump _ jump second rfl

end Runs

end UnixProgramming.Libmini
