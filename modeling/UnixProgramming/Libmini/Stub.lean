import UnixProgramming.Libmini.Jump
import UnixProgramming.Libmini.Syscall

/-!
# The stubs of the system calls, and `open`

The macro `gensys` makes a function that hands its arguments to the kernel, the fourth of them
in `r10`. It uses the two words below the stack pointer of its caller: the return address, and
`r10` while the call is made. `open` calls one of these stubs and does in assembly what the
other wrappers do in C.
-/

namespace UnixProgramming.Libmini

open Memory

section Model

/-- The instructions of the stubs and of `open`. -/
inductive Asm where
  | plain (i : Instr)
  | mov (dst src : Reg)
  | call (target : Word)
  | jmp (target : Word)
  | cmp (r : Reg) (v : Word)
  | jge (target : Word)
  | neg (r : Reg)
  /-- `mov dst, [rel errno wrt ..gotpcrel]`: the address of `errno` -/
  | errno (dst : Reg)
  /-- `mov QWORD [base], v` -/
  | storeImm (base : Reg) (v : Word)

structure Cpu where
  /-- nothing once the kernel does not come back -/
  machine : Option Machine
  /-- the flags as `jge` reads them -/
  ge : Bool
  /-- the states in which the kernel was called -/
  calls : List Machine

/-- The instruction at an address, and the address behind it. -/
abbrev Code := Word → Option (Asm × Word)

structure System where
  code : Code
  kernel : Machine → Option Machine
  errno : Addr

/-- What an instruction does, with `rip` behind it. -/
def Asm.exec (sys : System) (s : Machine) (ge : Bool) (calls : List Machine) : Asm → Cpu
  | .plain .syscall => ⟨sys.kernel s, ge, calls ++ [s]⟩
  | .plain i => ⟨some (Machine.run id [i] s), ge, calls⟩
  | .mov dst src => ⟨some (s.set dst (s.regs src)), ge, calls⟩
  | .call target => ⟨some
      { (s.set .rsp (s.regs .rsp - 8)).write (s.regs .rsp - 8) s.rip with rip := target }, ge, calls⟩
  | .jmp target => ⟨some { s with rip := target }, ge, calls⟩
  | .cmp r v => ⟨some s, decide (v.toInt ≤ (s.regs r).toInt), calls⟩
  | .jge target => ⟨some (if ge then { s with rip := target } else s), ge, calls⟩
  | .neg r => ⟨some (s.set r (-s.regs r)), decide ((s.regs r).toInt ≤ 0), calls⟩
  | .errno dst => ⟨some (s.set dst sys.errno), ge, calls⟩
  | .storeImm base v => ⟨some (s.write (s.regs base) v), ge, calls⟩

def System.step (sys : System) (c : Cpu) : Cpu :=
  match c.machine with
  | none => c
  | some s =>
    match sys.code s.rip with
    | none => c
    | some (i, next) => i.exec sys { s with rip := next } c.ge c.calls

/-- The macro `gensys`. -/
def gensys (number : Nat) : List Asm :=
  [.plain (.push .r10), .mov .r10 .rcx, .plain (.imm .rax (BitVec.ofNat 64 number)),
    .plain .syscall, .plain (.pop .r10), .plain .ret]

/-- Instructions lie one behind the other from an address to another. -/
def Laid (code : Code) : Word → List Asm → Word → Prop
  | a, [], b => a = b
  | a, i :: is, b => ∃ next, code a = some (i, next) ∧ Laid code next is b

/-- The labels of `open`, and that of the stub that it calls. -/
structure OpenLabels where
  sysOpen : Word
  start : Word
  openError : Word
  openSuccess : Word
  openQuit : Word
  behind : Word

/-- The code of `open`. -/
structure OpenLaid (code : Code) (l : OpenLabels) : Prop where
  start : Laid code l.start [.call l.sysOpen, .cmp .rax 0, .jge l.openSuccess] l.openError
  openError : Laid code l.openError [.neg .rax, .errno .rdi, .plain (.store .rdi 0 .rax),
    .plain (.imm .rax (-1)), .jmp l.openQuit] l.openSuccess
  openSuccess : Laid code l.openSuccess [.errno .rdi, .storeImm .rdi 0] l.openQuit
  openQuit : Laid code l.openQuit [.plain .ret] l.behind

end Model

section Runs

variable {sys : System} {s : Machine} {ge : Bool} {calls : List Machine} {i : Asm} {next : Word}
  {k : Nat} {c : Cpu}

theorem iterate_step (fetched : sys.code s.rip = some (i, next))
    (rest : sys.step^[k] (i.exec sys { s with rip := next } ge calls) = c) :
    sys.step^[k + 1] ⟨some s, ge, calls⟩ = c := by
  rw [Function.iterate_succ_apply, System.step]
  dsimp only
  rw [fetched]
  exact rest

/-- A stub up to its system call. -/
def Machine.entering (t : Machine) (number : Nat) : Machine :=
  ((t.push .r10).set .r10 (t.regs .rcx)).set .rax (BitVec.ofNat 64 number)

/-- The rest of a stub, from the end of its system call. -/
def Machine.leaving (q : Machine) : Machine := Machine.run id [.pop .r10, .ret] q

theorem gensys_enters {number : Nat} {b : Word} (laid : Laid sys.code s.rip (gensys number) b) :
    ∃ next, (∀ ge calls, sys.step^[4] ⟨some s, ge, calls⟩ =
      ⟨sys.kernel { s.entering number with rip := next }, ge,
        calls ++ [{ s.entering number with rip := next }]⟩) ∧
      ∀ q ge calls, q.rip = next → sys.step^[2] ⟨some q, ge, calls⟩ = ⟨some q.leaving, ge, calls⟩ := by
  rcases laid with ⟨a, push, b, mov, c, imm, next, call, d, pop, e, ret, -⟩
  refine ⟨next, fun ge calls => ?_, fun q ge calls here => ?_⟩
  · refine iterate_step push (iterate_step mov (iterate_step imm (iterate_step call ?_)))
    rfl
  · subst here
    refine iterate_step pop (iterate_step ret ?_)
    rfl

end Runs

section Calls

/-- The instruction `syscall` changes `rax`, `rcx` and `r11`, and memory where the call writes. -/
structure Documented (written : Machine → Set Addr) (kernel : Machine → Option Machine) : Prop where
  rip : ∀ e q, kernel e = some q → q.rip = e.rip
  regs : ∀ e q, kernel e = some q → ∀ r, r ≠ .rax → r ≠ .rcx → r ≠ .r11 → q.regs r = e.regs r
  mem : ∀ e q, kernel e = some q → Set.EqOn q.mem e.mem (written e)ᶜ

/-- What the kernel gets to see of a call in state `s`. -/
structure Enters (number : Nat) (s e : Machine) : Prop where
  number : e.regs .rax = BitVec.ofNat 64 number
  args : [Reg.rdi, .rsi, .rdx, .r10, .r8, .r9].map e.regs =
    [Reg.rdi, .rsi, .rdx, .rcx, .r8, .r9].map s.regs

/-- A call in state `s` comes back in state `f`, with the kernel's result from its state `q`. -/
structure Leaves (written : Set Addr) (back : Word) (s q f : Machine) : Prop where
  rax : f.regs .rax = q.regs .rax
  kept : ∀ r ∈ .rsp :: calleeSaved, f.regs r = s.regs r
  mem : ∀ x, x ∉ scratch (s.regs .rsp) → x ∉ written → f.mem x = s.mem x
  frame : Disjoint (scratch (s.regs .rsp)) written → f.rip = back ∧ f.regs .r10 = s.regs .r10

/-- The state in which a called routine starts. -/
def Machine.called (s : Machine) (target back : Word) : Machine :=
  { (s.set .rsp (s.regs .rsp - 8)).write (s.regs .rsp - 8) back with rip := target }

variable {sys : System} {s e q : Machine} {written : Machine → Set Addr} {number : Nat}
  {target back next b : Word}

theorem pushed_pushed (top : Addr) : top - 8 - 8 = pushed top 2 := by
  unfold pushed
  bv_omega

/-- The return address and `r10` lie in the two words of the stub, and nothing else is changed. -/
theorem entering_frame (s : Machine) (number : Nat) (target back next : Word) {e : Machine}
    (entered : e = { (s.called target back).entering number with rip := next }) :
    load e.mem (pushed (s.regs .rsp) 1) = back ∧
      load e.mem (pushed (s.regs .rsp) 2) = s.regs .r10 ∧
      Set.EqOn e.mem s.mem (scratch (s.regs .rsp))ᶜ := by
  have words : e.mem = stores s.mem
      [(pushed (s.regs .rsp) 1, back), (pushed (s.regs .rsp) 2, s.regs .r10)] := by
    rw [entered]
    exact congrArg (fun a => store (store s.mem (s.regs .rsp - 8) back) a (s.regs .r10))
      (pushed_pushed (s.regs .rsp))
  have apart : [(pushed (s.regs .rsp) 1, back), (pushed (s.regs .rsp) 2, s.regs .r10)].Pairwise
      fun p p' => Separate p.1 p'.1 := by
    simp [separate_pushed]
  rw [words]
  refine ⟨load_stores apart (by simp), load_stores apart (by simp), stores_eqOn ?_⟩
  simp [pushed_one_subset, pushed_two_subset]

theorem enters_entering (s : Machine) (number : Nat) (target back next : Word) :
    Enters number s { (s.called target back).entering number with rip := next } := ⟨rfl, rfl⟩

theorem entering_regs (s : Machine) (number : Nat) (target back next : Word) :
    ∀ r ∈ calleeSaved,
      ({ (s.called target back).entering number with rip := next } : Machine).regs r = s.regs r :=
  forall_calleeSaved.mpr ⟨rfl, rfl, rfl, rfl, rfl, rfl⟩

theorem leaving_leaves (documented : Documented written sys.kernel)
    (entered : e = { (s.called target back).entering number with rip := next })
    (came_back : sys.kernel e = some q) : Leaves (written e) back s q q.leaving := by
  have top : q.regs .rsp = pushed (s.regs .rsp) 2 := by
    rw [documented.regs e q came_back .rsp (by decide) (by decide) (by decide), entered]
    exact pushed_pushed (s.regs .rsp)
  have up : q.regs .rsp + 8 = pushed (s.regs .rsp) 1 := by
    rw [top]
    unfold pushed
    bv_omega
  rcases entering_frame s number target back next entered with ⟨address, saved_r10, outside⟩
  refine ⟨rfl, fun r listed => ?_, fun x off unwritten => ?_, fun clear => ⟨?_, ?_⟩⟩
  · rcases List.mem_cons.mp listed with rfl | saved
    · change q.regs .rsp + 8 + 8 = _
      rw [up]
      unfold pushed
      bv_omega
    · have same : ∀ r ∈ calleeSaved, q.leaving.regs r = q.regs r :=
        forall_calleeSaved.mpr ⟨rfl, rfl, rfl, rfl, rfl, rfl⟩
      rcases calleeSaved_spared r saved with ⟨rax, rcx, r11⟩
      rw [same r saved, documented.regs e q came_back r rax rcx r11, entered]
      exact entering_regs s number target back next r saved
  · exact (documented.mem e q came_back unwritten).trans (outside off)
  · change load q.mem (q.regs .rsp + 8) = back
    rw [up, load_eqOn (documented.mem e q came_back) (clear.mono_left pushed_one_subset), address]
  · change load q.mem (q.regs .rsp) = s.regs .r10
    rw [top, load_eqOn (documented.mem e q came_back) (clear.mono_left pushed_two_subset), saved_r10]

/-- A call of a stub makes one system call. -/
theorem gensys_calls (documented : Documented written sys.kernel)
    (laid : Laid sys.code target (gensys number) b)
    (call : sys.code s.rip = some (.call target, back)) (ge : Bool) (calls : List Machine) :
    ∃ e, Enters number s e ∧
      (sys.kernel e = none → sys.step^[5] ⟨some s, ge, calls⟩ = ⟨none, ge, calls ++ [e]⟩) ∧
      ∀ q, sys.kernel e = some q → ∃ f, Leaves (written e) back s q f ∧
        sys.step^[7] ⟨some s, ge, calls⟩ = ⟨some f, ge, calls ++ [e]⟩ := by
  have there : (s.called target back).rip = target := rfl
  rcases gensys_enters (s := s.called target back) (by rwa [there]) with ⟨next, enters, leaves⟩
  have entered := iterate_step call (enters ge calls)
  refine ⟨_, enters_entering s number target back next, fun gone => ?_, fun q came_back => ?_⟩
  · rw [entered, gone]
  · refine ⟨_, leaving_leaves documented rfl came_back, ?_⟩
    rw [show 7 = 2 + 5 from rfl, Function.iterate_add_apply, entered, came_back]
    exact leaves q ge _ (documented.rip _ q came_back)

end Calls

section Open

variable {sys : System} {s f g : Machine} {l : OpenLabels} {back n₁ n₂ : Word}

/-- What `open` makes in `g` of the result that `sys_open` has left in `f`. -/
structure OpenEnds (errno : Addr) (f g : Machine) : Prop where
  value : (g.regs .rax).toInt = (openReturn (f.regs .rax)).value
  mem : g.mem = store f.mem errno (openReturn (f.regs .rax)).errno
  rip : g.rip = load g.mem (f.regs .rsp)
  rsp : g.regs .rsp = f.regs .rsp + 8
  kept : ∀ r ∈ calleeSaved, g.regs r = f.regs r

theorem open_branches (cmp : sys.code f.rip = some (.cmp .rax 0, n₂))
    (jge : sys.code n₂ = some (.jge l.openSuccess, l.openError)) (ge : Bool) (calls : List Machine) :
    sys.step^[2] ⟨some f, ge, calls⟩ =
      ⟨some { f with rip := if 0 ≤ (f.regs .rax).toInt then l.openSuccess else l.openError },
        decide (0 ≤ (f.regs .rax).toInt), calls⟩ := by
  refine iterate_step cmp (iterate_step jge ?_)
  by_cases success : 0 ≤ (f.regs .rax).toInt <;> simp [Asm.exec, success]

/-- From `open_success` on. -/
def Machine.opened (f : Machine) (errno : Addr) : Machine :=
  Machine.run id [.ret] ((f.set .rdi errno).write errno 0)

/-- From `open_error` on. -/
def Machine.refused (f : Machine) (errno : Addr) : Machine :=
  Machine.run id [.store .rdi 0 .rax, .imm .rax (-1), .ret]
    ((f.set .rax (-f.regs .rax)).set .rdi errno)

theorem open_opened (laid : OpenLaid sys.code l) (here : f.rip = l.openSuccess) (ge : Bool)
    (calls : List Machine) :
    sys.step^[3] ⟨some f, ge, calls⟩ = ⟨some (f.opened sys.errno), ge, calls⟩ := by
  rcases laid.openSuccess with ⟨_, address, _, clear, rfl⟩
  rcases laid.openQuit with ⟨_, quit, -⟩
  rw [← here] at address
  exact iterate_step address (iterate_step clear (iterate_step quit rfl))

theorem open_refused (laid : OpenLaid sys.code l) (here : f.rip = l.openError) (ge : Bool)
    (calls : List Machine) : ∃ ge',
    sys.step^[6] ⟨some f, ge, calls⟩ = ⟨some (f.refused sys.errno), ge', calls⟩ := by
  rcases laid.openError with ⟨_, negate, _, address, _, put, _, minus, _, jump, -⟩
  rcases laid.openQuit with ⟨_, quit, -⟩
  rw [← here] at negate
  exact ⟨_, iterate_step negate (iterate_step address (iterate_step put (iterate_step minus
    (iterate_step jump (iterate_step quit rfl)))))⟩

theorem opened_ends (success : 0 ≤ (f.regs .rax).toInt) (errno : Addr) (rip : Word) :
    OpenEnds errno f (Machine.opened { f with rip := rip } errno) := by
  have answer : openReturn (f.regs .rax) = ⟨(f.regs .rax).toInt, 0⟩ := if_pos success
  refine ⟨?_, ?_, rfl, rfl, forall_calleeSaved.mpr ⟨rfl, rfl, rfl, rfl, rfl, rfl⟩⟩
  · rw [answer]
    rfl
  · rw [answer]
    rfl

theorem refused_ends (error : ¬ 0 ≤ (f.regs .rax).toInt) (errno : Addr) (rip : Word) :
    OpenEnds errno f (Machine.refused { f with rip := rip } errno) := by
  have answer : openReturn (f.regs .rax) = ⟨-1, -f.regs .rax⟩ := if_neg error
  refine ⟨?_, ?_, rfl, rfl, forall_calleeSaved.mpr ⟨rfl, rfl, rfl, rfl, rfl, rfl⟩⟩
  · rw [answer]
    rfl
  · have place : errno + BitVec.ofNat 64 0 = errno := BitVec.add_zero errno
    rw [answer]
    exact congrArg (fun a => store f.mem a (-f.regs .rax)) place

/-- `open` behind its call. -/
theorem open_ends (laid : OpenLaid sys.code l) (cmp : sys.code f.rip = some (.cmp .rax 0, n₂))
    (jge : sys.code n₂ = some (.jge l.openSuccess, l.openError)) (ge : Bool) (calls : List Machine) :
    ∃ k ge' g, sys.step^[k] ⟨some f, ge, calls⟩ = ⟨some g, ge', calls⟩ ∧ OpenEnds sys.errno f g := by
  have branch := open_branches cmp jge ge calls
  by_cases success : 0 ≤ (f.regs .rax).toInt
  · rw [if_pos success] at branch
    refine ⟨3 + 2, decide (0 ≤ (f.regs .rax).toInt), _, ?_,
      opened_ends success sys.errno l.openSuccess⟩
    rw [Function.iterate_add_apply, branch]
    exact open_opened laid rfl _ calls
  · rw [if_neg success] at branch
    rcases open_refused (f := { f with rip := l.openError }) laid rfl
      (decide (0 ≤ (f.regs .rax).toInt)) calls with ⟨ge', ends⟩
    refine ⟨6 + 2, ge', _, ?_, refused_ends success sys.errno l.openError⟩
    rw [Function.iterate_add_apply, branch]
    exact ends

/-- In an `int`, the result of `open` is that of the macro. -/
theorem openReturn_eq (ret : Word) : (openReturn ret).errno = (retVal .int ret).errno ∧
    ∀ rax : Word, rax.toInt = (openReturn ret).value →
      (rax.setWidth 32).toInt = (retVal .int ret).value := by
  have low (rax : Word) : (rax.setWidth 32).toInt = rax.toInt.bmod (2 ^ 32) := by
    rw [BitVec.toInt_setWidth, BitVec.toInt_eq_toNat_bmod, Int.bmod_bmod_of_dvd (by decide)]
  unfold openReturn retVal
  by_cases success : 0 ≤ ret.toInt
  · rw [if_pos success, if_neg (by omega)]
    refine ⟨rfl, fun rax value => ?_⟩
    rw [low, value]
    rfl
  · rw [if_neg success, if_pos (by omega)]
    refine ⟨rfl, fun rax value => ?_⟩
    rw [low, value]
    rfl

/-- The word at the stack pointer is above the two words of a stub. -/
theorem above_scratch (top : Addr) : ∀ x ∈ window top 8, x ∉ scratch top := by
  intro x near below
  rw [scratch, mem_window, pushed] at below
  rw [mem_window] at near
  bv_omega

variable {written : Machine → Set Addr} {number : Nat} {b : Word}

/-- A call of `open` in state `s` comes back in state `g`, with what the macro makes of the raw
result `ret`. -/
structure OpenReturns (errno : Addr) (back ret : Word) (s g : Machine) : Prop where
  eax : ((g.regs .rax).setWidth 32).toInt = (retVal .int ret).value
  told : load g.mem errno = (retVal .int ret).errno
  kept : ∀ r ∈ .rsp :: calleeSaved, g.regs r = s.regs r
  rip : Separate (s.regs .rsp - 8) errno → g.rip = back

/-- The routine does what its wrapper says. -/
theorem OpenReturns.wrapper {errno : Addr} {ret : Word} (h : OpenReturns errno back ret s g)
    (filename flags mode : Word) :
    (⟨((g.regs .rax).setWidth 32).toInt, load g.mem errno⟩ : Answer) =
      (Wrapper.open filename flags mode).run ret := by
  have same := tells_openReturn ⟨2, [filename, flags, mode]⟩ .int ret
  rw [Wrapper.open, same, h.eax, h.told, retVal]
  split_ifs <;> rfl

theorem openReturns_of_ends {n : Word} {q f g : Machine}
    (leaves : Leaves ∅ n (s.called l.start back) q f) (ends : OpenEnds sys.errno f g) :
    OpenReturns sys.errno back (q.regs .rax) s g := by
  have result := openReturn_eq (q.regs .rax)
  have value := ends.value
  have mem := ends.mem
  have top : f.regs .rsp = s.regs .rsp - 8 := leaves.kept .rsp List.mem_cons_self
  rw [leaves.rax] at value mem
  refine ⟨result.2 _ value, ?_, fun r listed => ?_, fun apart => ?_⟩
  · rw [mem, load_store, result.1]
  · rcases List.mem_cons.mp listed with rfl | saved
    · rw [ends.rsp, top, BitVec.sub_add_cancel]
    · have start : ∀ r ∈ calleeSaved, (s.called l.start back).regs r = s.regs r :=
        forall_calleeSaved.mpr ⟨rfl, rfl, rfl, rfl, rfl, rfl⟩
      rw [ends.kept r saved, leaves.kept r listed, start r saved]
  · have kept : load f.mem (s.regs .rsp - 8) = load (s.called l.start back).mem (s.regs .rsp - 8) :=
      load_congr fun i hi => leaves.mem _
        (above_scratch _ _ (add_mem_window _ hi (by decide))) (Set.notMem_empty _)
    rw [ends.rip, mem, top, load_store_of_separate apart, kept]
    exact load_store s.mem (s.regs .rsp - 8) back

theorem open_calls (documented : Documented written sys.kernel)
    (silent : ∀ e, e.regs .rax = 2 → written e = ∅) (stub : Laid sys.code l.sysOpen (gensys 2) b)
    (laid : OpenLaid sys.code l) (call : sys.code s.rip = some (.call l.start, back)) (ge : Bool)
    (calls : List Machine) :
    ∃ e, Enters 2 s e ∧ ∀ q, sys.kernel e = some q → ∃ k ge' g,
      sys.step^[k] ⟨some s, ge, calls⟩ = ⟨some g, ge', calls ++ [e]⟩ ∧
        OpenReturns sys.errno back (q.regs .rax) s g := by
  rcases laid.start with ⟨n, callSys, _, cmp, _, jge, rfl⟩
  have there : (s.called l.start back).rip = l.start := rfl
  rw [← there] at callSys
  rcases gensys_calls documented stub callSys ge calls with ⟨e, enters, -, comes_back⟩
  refine ⟨e, ⟨enters.number, enters.args⟩, fun q came_back => ?_⟩
  rcases comes_back q came_back with ⟨f, leaves, called⟩
  have nothing : written e = ∅ := silent e enters.number
  rw [nothing] at leaves
  have here : f.rip = n := (leaves.frame (Set.disjoint_empty _)).1
  rw [← here] at cmp
  rcases open_ends laid cmp jge ge (calls ++ [e]) with ⟨k, ge', g, finished, ends⟩
  refine ⟨k + 7 + 1, ge', g, iterate_step call ?_, openReturns_of_ends leaves ends⟩
  rw [Function.iterate_add_apply]
  exact (congrArg _ called).trans finished

end Open

section Whole

variable {sys : System} {l : OpenLabels} {written : Machine → Set Addr} {b : Word}

/-- Each stub makes one system call, of its number and with the arguments of its caller, and
gives back all registers but those of the kernel's assumption, and all memory but the two words
below the stack pointer of its caller and what the call writes; if the call leaves these two
words alone, it returns and gives back `r10` too. `open` leaves in `eax` and `errno` what
`WRAPPER_RETval(int)` makes of the result of `sys_open` for the same arguments. -/
theorem syscalls_faithful (documented : Documented written sys.kernel)
    (silent : ∀ e, e.regs .rax = 2 → written e = ∅) (stub : Laid sys.code l.sysOpen (gensys 2) b)
    (laid : OpenLaid sys.code l) (s : Machine) (ge : Bool) (calls : List Machine) (back : Word) :
    (∀ number target b', Laid sys.code target (gensys number) b' →
      sys.code s.rip = some (.call target, back) →
      ∃ e, Enters number s e ∧
        (sys.kernel e = none → sys.step^[5] ⟨some s, ge, calls⟩ = ⟨none, ge, calls ++ [e]⟩) ∧
        ∀ q, sys.kernel e = some q → ∃ f, Leaves (written e) back s q f ∧
          sys.step^[7] ⟨some s, ge, calls⟩ = ⟨some f, ge, calls ++ [e]⟩) ∧
    (sys.code s.rip = some (.call l.start, back) →
      ∃ e, Enters 2 s e ∧ ∀ q, sys.kernel e = some q → ∃ k ge' g,
        sys.step^[k] ⟨some s, ge, calls⟩ = ⟨some g, ge', calls ++ [e]⟩ ∧
          OpenReturns sys.errno back (q.regs .rax) s g) :=
  ⟨fun _ _ _ here call => gensys_calls documented here call ge calls,
    fun call => open_calls documented silent stub laid call ge calls⟩

end Whole

section Sample

/-- A program with its instructions at the addresses from 0 on. -/
def listing (is : List Asm) : Code := fun a => is[a.toNat]?.map fun i => (i, a + 1)

/-- A `read` that finds one byte. -/
def readByte (e : Machine) : Option Machine :=
  some { e.set .rax 1 with proc := { e.proc with mem := Function.update e.mem (e.regs .rsi) 0x41 } }

/-- A caller of the stub in front of it, with its stack at `0x8000`. -/
def reader (buf : Addr) : Machine where
  regs r := if r = .rsp then 0x8000 else if r = .rsi then buf else if r = .rdx then 1 else 0
  rip := 6
  proc := ⟨fun _ => 0, 0, fun _ => ⟨0, 0, 0, 0⟩⟩

/-- The registers and the memory that the caller keeps. -/
structure AsBefore (s f : Machine) : Prop where
  kept : ∀ r ∈ .rsp :: .r10 :: calleeSaved, f.regs r = s.regs r
  mem : ∀ x : Addr, (s.regs .rsp).toNat ≤ x.toNat → f.mem x = s.mem x

theorem readByte_documented : Documented (fun e => {e.regs .rsi}) readByte where
  rip e q came_back := by
    cases came_back
    rfl
  regs e q came_back r rax _ _ := by
    cases came_back
    exact Function.update_of_ne rax _ _
  mem e q came_back x off := by
    cases came_back
    exact Function.update_of_ne off _ _

/-- A `read` into the caller's own stack, and one onto the `r10` that the stub keeps. -/
theorem read_onto_stack :
    Documented (fun e => {e.regs .rsi}) readByte ∧
    Laid (listing (gensys 0 ++ [.call 0])) 0 (gensys 0) 6 ∧
    (∃ f e, (System.mk (listing (gensys 0 ++ [.call 0])) readByte 0).step^[7]
      ⟨some (reader 0x8000), true, []⟩ = ⟨some f, true, [e]⟩ ∧ ¬ AsBefore (reader 0x8000) f) ∧
    ∃ f e, (System.mk (listing (gensys 0 ++ [.call 0])) readByte 0).step^[7]
      ⟨some (reader 0x7ff0), true, []⟩ = ⟨some f, true, [e]⟩ ∧ ¬ AsBefore (reader 0x7ff0) f := by
  refine ⟨readByte_documented, ⟨1, rfl, 2, rfl, 3, rfl, 4, rfl, 5, rfl, 6, rfl, rfl⟩,
    ⟨_, _, rfl, fun as_before => ?_⟩, ⟨_, _, rfl, fun as_before => ?_⟩⟩
  · exact absurd (as_before.mem 0x8000 le_rfl) (by decide)
  · exact absurd (as_before.kept .r10 (by decide)) (by decide)

/-- `open` behind its stub, a call of it, and a kernel that answers `ENOENT`. -/
def opening : System where
  code := listing (gensys 2 ++ [.call 0, .cmp .rax 0, .jge 14, .neg .rax, .errno .rdi,
    .plain (.store .rdi 0 .rax), .plain (.imm .rax (-1)), .jmp 16, .errno .rdi, .storeImm .rdi 0,
    .plain .ret, .call 6])
  kernel e := some (e.set .rax (-2))
  errno := 0x6000

theorem opening_laid : OpenLaid opening.code ⟨0, 6, 9, 14, 16, 17⟩ where
  start := ⟨7, rfl, 8, rfl, 9, rfl, rfl⟩
  openError := ⟨10, rfl, 11, rfl, 12, rfl, 13, rfl, 14, rfl, rfl⟩
  openSuccess := ⟨15, rfl, 16, rfl, rfl⟩
  openQuit := ⟨17, rfl, rfl⟩

theorem opening_documented : Documented (fun _ => ∅) opening.kernel where
  rip e q came_back := by
    cases came_back
    rfl
  regs e q came_back r rax _ _ := by
    cases came_back
    exact Function.update_of_ne rax _ _
  mem e q came_back := by
    cases came_back
    exact fun _ _ => rfl

theorem syscalls_faithful_noent : ∃ e k ge' g, Enters 2 { reader 0 with rip := 17 } e ∧
    opening.step^[k] ⟨some { reader 0 with rip := 17 }, true, []⟩ = ⟨some g, ge', [e]⟩ ∧
    OpenReturns 0x6000 18 (-2) { reader 0 with rip := 17 } g := by
  have stub : Laid opening.code 0 (gensys 2) 6 :=
    ⟨1, rfl, 2, rfl, 3, rfl, 4, rfl, 5, rfl, 6, rfl, rfl⟩
  have faithful := syscalls_faithful opening_documented (fun _ _ => rfl) stub opening_laid
    { reader 0 with rip := 17 } true [] 18
  rcases faithful.2 rfl with ⟨e, enters, comes_back⟩
  rcases comes_back _ rfl with ⟨k, ge', g, finished, returns⟩
  exact ⟨e, k, ge', g, enters, finished, returns⟩

end Sample

end UnixProgramming.Libmini
