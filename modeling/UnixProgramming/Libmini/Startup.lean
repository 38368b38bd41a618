import UnixProgramming.Libmini.Stub

/-!
# The start and the end of a program

The kernel starts a program at `_start`, with the number of its arguments at the stack pointer
and their addresses behind it. `_start` calls `main`, and hands what it returns to `exit`, whose
system call is the last thing that the program does.
-/

namespace UnixProgramming.Libmini

open Memory

section Model

/-- A program with `start.asm`, where `lea` gives the instructions `lea dst, [base+disp]`. -/
structure Executable extends System where
  lea : Word → Option ((Reg × Reg × Nat) × Word)
  /-- an address has one instruction -/
  once : ∀ a, (lea a).isSome → code a = none

def Executable.step (p : Executable) (c : Cpu) : Cpu :=
  match c.machine with
  | none => c
  | some s =>
    match p.lea s.rip with
    | some ((dst, base, disp), next) =>
      { c with machine := some (Machine.set { s with rip := next } dst (s.addr base disp)) }
    | none => p.toSystem.step c

structure StartLabels where
  start : Word
  main : Word
  /-- where `main` returns to -/
  back : Word
  exit : Word
  sysExit : Word

/-- The code of `_start`. -/
structure StartLaid (p : Executable) (l : StartLabels) : Prop where
  argv : ∃ n₁ n₂, p.code l.start = some (.plain (.load .rdi .rsp 0), n₁) ∧
    p.lea n₁ = some ((.rsi, .rsp, 8), n₂) ∧ p.code n₂ = some (.call l.main, l.back)
  exit : ∃ n, Laid p.code l.back [.mov .rdi .rax, .call l.exit, .plain .ret] n

/-- `exit` as it is compiled: it comes to its call of `sys_exit`, with the same `int`. -/
def ExitCalls (p : Executable) (l : StartLabels) : Prop :=
  ∀ s ge calls, s.rip = l.exit → ∃ k t ge' back,
    p.step^[k] ⟨some s, ge, calls⟩ = ⟨some t, ge', calls⟩ ∧ p.code t.rip = some (.call l.sysExit, back) ∧
      (t.regs .rdi).setWidth 32 = (s.regs .rdi).setWidth 32

/-- The state in which `main` starts: it has the number of the arguments and the address of the
first of their addresses, above the word to which it returns. -/
structure Entered (l : StartLabels) (s m : Machine) : Prop where
  rip : m.rip = l.main
  argc : m.regs .rdi = load s.mem (s.regs .rsp)
  argv : m.regs .rsi = s.regs .rsp + 8
  rsp : m.regs .rsp = s.regs .rsp - 8
  regs : ∀ r, r ≠ .rdi → r ≠ .rsi → r ≠ .rsp → m.regs r = s.regs r
  back : load m.mem (m.regs .rsp) = l.back
  mem : Set.EqOn m.mem s.mem (window (s.regs .rsp - 8) 8)ᶜ

end Model

section Runs

variable {p : Executable} {l : StartLabels} {s : Machine} {ge : Bool} {calls : List Machine} {i : Asm}
  {next : Word} {k : Nat} {c : Cpu}

theorem Executable.step_asm (fetched : p.code s.rip = some (i, next))
    (rest : p.step^[k] (i.exec p.toSystem { s with rip := next } ge calls) = c) :
    p.step^[k + 1] ⟨some s, ge, calls⟩ = c := by
  have plain : p.lea s.rip = none := by
    by_contra lea
    rw [p.once s.rip (Option.isSome_iff_ne_none.mpr lea)] at fetched
    cases fetched
  rw [Function.iterate_succ_apply, Executable.step]
  dsimp only
  rw [plain]
  dsimp only
  rw [System.step]
  dsimp only
  rw [fetched]
  exact rest

theorem Executable.step_lea {dst base : Reg} {disp : Nat} (fetched : p.lea s.rip = some ((dst, base, disp), next))
    (rest : p.step^[k] ⟨some (Machine.set { s with rip := next } dst (s.addr base disp)), ge, calls⟩ = c) :
    p.step^[k + 1] ⟨some s, ge, calls⟩ = c := by
  rw [Function.iterate_succ_apply, Executable.step]
  dsimp only
  rw [fetched]
  exact rest

/-- Without a machine nothing happens any more. -/
theorem Executable.step_gone (k : Nat) : p.step^[k] ⟨none, ge, calls⟩ = ⟨none, ge, calls⟩ := by
  induction k with
  | zero => rfl
  | succ k ih => rwa [Function.iterate_succ_apply]

/-- `_start` up to the call of `main`. -/
theorem start_enters (laid : StartLaid p l) (here : s.rip = l.start) (ge : Bool) (calls : List Machine) :
    ∃ m, p.step^[3] ⟨some s, ge, calls⟩ = ⟨some m, ge, calls⟩ ∧ Entered l s m := by
  rcases laid.argv with ⟨n₁, n₂, load_argc, lea_argv, call_main⟩
  rw [← here] at load_argc
  refine ⟨_, Executable.step_asm load_argc (Executable.step_lea lea_argv (Executable.step_asm call_main rfl)), ?_⟩
  have argc : s.addr .rsp 0 = s.regs .rsp := by simp [Machine.addr]
  constructor
  · rfl
  · change load s.mem (s.addr .rsp 0) = _
    rw [argc]
  · rfl
  · rfl
  · intro r rdi rsi rsp
    change Function.update (Function.update (Function.update s.regs .rdi _) .rsi _) .rsp _ r = _
    rw [Function.update_of_ne rsp, Function.update_of_ne rsi, Function.update_of_ne rdi]
  · exact load_store _ _ _
  · exact fun x out => store_of_notMem out

/-- From the end of `main` on. -/
theorem start_leaves (laid : StartLaid p l) (compiled : ExitCalls p l) {stub : Word}
    (exit : Laid p.code l.sysExit (gensys 60) stub) (never : ∀ e, e.regs .rax = 60 → p.kernel e = none)
    {f : Machine} (returned : f.rip = l.back) (ge : Bool) (calls : List Machine) :
    ∃ k e ge', p.step^[k] ⟨some f, ge, calls⟩ = ⟨none, ge', calls ++ [e]⟩ ∧ e.regs .rax = 60 ∧
      (e.regs .rdi).setWidth 32 = (f.regs .rax).setWidth 32 := by
  rcases laid.exit with ⟨-, n₁, mov, n₂, call_exit, -⟩
  rw [← returned] at mov
  let f' : Machine := Machine.set { f with rip := n₁ } .rdi (f.regs .rax)
  rcases compiled (f'.called l.exit n₂) ge calls rfl with ⟨k, t, ge', back, reaches, call_sys, same⟩
  rcases exit with ⟨a, push, b, mov_r10, d, number, n, syscall, -⟩
  let e : Machine := { (t.called l.sysExit back).entering 60 with rip := n }
  have gone : p.kernel e = none := never e rfl
  have exits : p.step^[5] ⟨some t, ge', calls⟩ = ⟨none, ge', calls ++ [e]⟩ := by
    refine Executable.step_asm call_sys (Executable.step_asm push (Executable.step_asm mov_r10
      (Executable.step_asm number (Executable.step_asm syscall ?_))))
    exact congrArg (fun m => (⟨m, ge', calls ++ [e]⟩ : Cpu)) gone
  refine ⟨5 + k + 2, e, ge', Executable.step_asm mov (Executable.step_asm call_exit ?_), rfl, ?_⟩
  · rw [Function.iterate_add_apply]
    exact (congrArg _ reaches).trans exits
  · change (t.regs .rdi).setWidth 32 = _
    rw [same]
    rfl

end Runs

section Whole

variable {p : Executable} {l : StartLabels} {s : Machine} {stub : Word}

/-- `main` gets the arguments, and once it has returned, the program makes one more system call
and none after it: `exit` with the `int` that `main` returned. -/
theorem start_exits (laid : StartLaid p l) (compiled : ExitCalls p l)
    (exit : Laid p.code l.sysExit (gensys 60) stub) (never : ∀ e, e.regs .rax = 60 → p.kernel e = none)
    (here : s.rip = l.start) (ge : Bool) (calls : List Machine) :
    ∃ m, p.step^[3] ⟨some s, ge, calls⟩ = ⟨some m, ge, calls⟩ ∧ Entered l s m ∧
      ∀ k f ge' calls', p.step^[k] ⟨some m, ge, calls⟩ = ⟨some f, ge', calls'⟩ → f.rip = l.back →
        ∃ e ge'' j, e.regs .rax = 60 ∧ (e.regs .rdi).setWidth 32 = (f.regs .rax).setWidth 32 ∧
          ∀ i, p.step^[i + j] ⟨some s, ge, calls⟩ = ⟨none, ge'', calls' ++ [e]⟩ := by
  rcases start_enters laid here ge calls with ⟨m, enters, entered⟩
  refine ⟨m, enters, entered, fun k f ge' calls' ran returned => ?_⟩
  rcases start_leaves laid compiled exit never returned ge' calls' with ⟨k', e, ge'', leaves, number, value⟩
  refine ⟨e, ge'', k' + (k + 3), number, value, fun i => ?_⟩
  rw [Function.iterate_add_apply, Function.iterate_add_apply, Function.iterate_add_apply, enters, ran, leaves]
  exact Executable.step_gone i

end Whole

section Sample

/-- `_start`, a `main` that returns 7, `exit`, and its stub. -/
def seven : Executable where
  code a := if a = 1 then none else listing ([.plain (.load .rdi .rsp 0), .plain .ret, .call 6,
    .mov .rdi .rax, .call 8, .plain .ret, .plain (.imm .rax 7), .plain .ret, .call 10, .plain .ret] ++
    gensys 60) a
  kernel e := if e.regs .rax = 60 then none else some e
  errno := 0x6000
  lea a := if a = 1 then some ((.rsi, .rsp, 8), 2) else none
  once a here := by
    by_cases one : a = 1
    · exact if_pos one
    · rw [if_neg one] at here
      cases here

def sevenLabels : StartLabels := ⟨0, 6, 3, 8, 10⟩

theorem start_exits_seven : ∃ e ge j, e.regs .rax = 60 ∧ (e.regs .rdi).setWidth 32 = (7 : BitVec 32) ∧
    ∀ i, seven.step^[i + j] ⟨some { reader 0 with rip := 0 }, true, []⟩ = ⟨none, ge, [e]⟩ := by
  have laid : StartLaid seven sevenLabels := ⟨⟨1, 2, rfl, rfl, rfl⟩, ⟨6, 4, rfl, 5, rfl, 6, rfl, rfl⟩⟩
  have compiled : ExitCalls seven sevenLabels := by
    intro s ge calls here
    refine ⟨0, s, ge, 9, rfl, ?_, rfl⟩
    rw [here]
    rfl
  have stub : Laid seven.code 10 (gensys 60) 16 := ⟨11, rfl, 12, rfl, 13, rfl, 14, rfl, 15, rfl, 16, rfl, rfl⟩
  have whole := start_exits laid compiled stub (fun e number => if_pos number)
    (s := { reader 0 with rip := 0 }) rfl true []
  rcases whole with ⟨m, enters, entered, leaves⟩
  have came : ∃ f, seven.step^[2] ⟨some m, true, []⟩ = ⟨some f, true, []⟩ ∧ f.rip = 3 ∧ f.regs .rax = 7 := by
    have fetched : seven.code m.rip = some (.plain (.imm .rax 7), 7) := by rw [entered.rip]; rfl
    have last : seven.code 7 = some (.plain .ret, 8) := rfl
    exact ⟨_, Executable.step_asm fetched (Executable.step_asm last rfl), entered.back, rfl⟩
  rcases came with ⟨f, ran, back, value⟩
  rcases leaves 2 f true [] ran back with ⟨e, ge, j, number, same, gone⟩
  rw [value] at same
  exact ⟨e, ge, j, number, same, gone⟩

end Sample

end UnixProgramming.Libmini
