import UnixProgramming.Logger.Wrapper

/-!
# What gets back to the program

A wrapper calls the real function once and with the same arguments. The result gets back
if it fits the types that the wrapper declares, and `errno` if no later helper fails.
-/

namespace UnixProgramming.Logger

open Stateful

section Runs

variable {libc : Libc} {s s' : Caller}

theorem report_apply (failure : Option Int) :
    report failure s = .ok () { s with errno := failure.getD s.errno } := by
  rw [report, modify_apply]

theorem guard_ok {holds : Bool} {fault : Fault} {u : Unit} :
    guard holds fault s = .ok u s' ↔ holds = true ∧ s' = s := by
  cases holds with
  | true => simp [guard, eq_comm]
  | false => simp [guard]

/-- A helper comes back if and only if it is safe, and then may have changed `errno`. -/
theorem Helper.run_ok {h : Helper} :
    h.run libc s = .ok () s' ↔ h.Safe libc s.calls ∧
      s' = { s with errno := (h.failure libc s.calls).getD s.errno } := by
  cases h with
  | realpath path size =>
    rw [Helper.run, bind_apply, get_apply]
    cases resolution : libc.realpath s.calls path with
    | found resolved => simp [resolution, guard_ok, Helper.Safe, Helper.failure]
    | failed errno written =>
      simp only [resolution, bind_apply, report_apply, Helper.Safe, Helper.failure]
      by_cases fits : written ≤ size <;> simp [guard, fits]
      split <;> simp_all [eq_comm]
  | readlink fd => simp [Helper.run, report_apply, Helper.Safe, Helper.failure, eq_comm]
  | readlinkOf stream =>
    simp only [Helper.run, bind_apply, report_apply, get_apply, Helper.Safe, Helper.failure]
    cases libc.readlink s.calls (libc.fileno stream).1 <;> simp [eq_comm]
  | checkbuf buf => simp [Helper.run, guard_ok, Helper.Safe, Helper.failure]
  | dprintf =>
    rw [Helper.run]
    cases fd : libc.getenv with
    | none => simp [Helper.Safe, fd]
    | some fd => simp [report_apply, Helper.Safe, Helper.failure, fd, eq_comm]
  | dlclose => simp [Helper.run, report_apply, Helper.Safe, Helper.failure, eq_comm]

/-- The error of the last helper that fails. -/
def lastFailure (libc : Libc) (calls : List RealCall) : List Helper → Option Int
  | [] => none
  | h :: hs => (lastFailure libc calls hs).or (h.failure libc calls)

theorem forM_run_ok {hs : List Helper} {u : Unit} :
    forM hs (Helper.run libc) s = .ok u s' ↔ (∀ h ∈ hs, h.Safe libc s.calls) ∧
      s' = { s with errno := (lastFailure libc s.calls hs).getD s.errno } := by
  induction hs generalizing s with
  | nil => simp [lastFailure, eq_comm]
  | cons h hs ih =>
    rw [List.forM_cons, bind_apply, List.forall_mem_cons]
    constructor
    · intro run
      cases first : h.run libc s with
      | error fault t => simp [first] at run
      | ok _ t =>
        obtain ⟨safe, rfl⟩ := Helper.run_ok.mp first
        rw [first] at run
        obtain ⟨rest, rfl⟩ := ih.mp run
        refine ⟨⟨safe, rest⟩, ?_⟩
        cases last : lastFailure libc s.calls hs <;> simp [lastFailure, last]
    · rintro ⟨⟨safe, rest⟩, rfl⟩
      rw [Helper.run_ok.mpr ⟨safe, rfl⟩]
      refine ih.mpr ⟨rest, ?_⟩
      cases last : lastFailure libc s.calls hs <;> simp [lastFailure, last]

/-- The library is there, and no helper of the call leaves its buffers. -/
def Loggable (libc : Libc) (c : Call) : Prop :=
  libc.finds c.real.symbol ∧ (∀ h ∈ (wrapper c).before, h.Safe libc []) ∧
    ∀ h ∈ (wrapper c).ending, h.Safe libc [c.real]

/-- The value on its way through the types of the wrapper. -/
def Wrapper.passed (w : Wrapper) (rax : BitVec 64) : Int :=
  w.returned.convert (w.retval.convert (w.old.convert rax.toInt))

/-- `errno` when the real function has returned. -/
def Call.errno (libc : Libc) (c : Call) (errno : Int) : Int :=
  (libc.real c.real).2.getD ((lastFailure libc [] (wrapper c).before).getD errno)

theorem RealCall.run_ok {c : RealCall} {old : CType} {v : Int} :
    c.run libc old s = .ok v s' ↔ v = old.convert (libc.real c).1.toInt ∧
      s' = ⟨(libc.real c).2.getD s.errno, s.calls ++ [c]⟩ := by
  simp [RealCall.run, report_apply, eq_comm]

theorem wrapper_run_ok {c : Call} {errno v : Int} :
    (wrapper c).run libc ⟨errno, []⟩ = .ok v s ↔ Loggable libc c ∧
      v = (wrapper c).passed (libc.real c.real).1 ∧
      s = ⟨(lastFailure libc [c.real] (wrapper c).ending).getD (c.errno libc errno), [c.real]⟩ := by
  have symbol : (wrapper c).symbol = c.real.symbol := by rw [← wrapper_real]; rfl
  rw [Wrapper.run, symbol, wrapper_real]
  simp only [bind_ok, guard_ok, forM_run_ok, RealCall.run_ok]
  constructor
  · rintro ⟨_, _, ⟨finds, rfl⟩, _, _, ⟨before, rfl⟩, _, _, ⟨rfl, rfl⟩, _, _, ⟨ending, rfl⟩, returned⟩
    cases returned
    exact ⟨⟨finds, before, ending⟩, rfl, rfl⟩
  · rintro ⟨⟨finds, before, ending⟩, rfl, rfl⟩
    exact ⟨(), _, ⟨finds, rfl⟩, (), _, ⟨before, rfl⟩, _, _, ⟨rfl, rfl⟩, (), _, ⟨ending, rfl⟩, rfl⟩

end Runs

section Results

variable {x : Int}

theorem CType.convert_convert (t : CType) (v : Int) : t.convert (t.convert v) = t.convert v := by
  cases t with
  | int => exact Int.bmod_bmod
  | ssize => exact Int.bmod_bmod
  | size => exact Int.emod_emod_of_dvd v (dvd_refl _)
  | pointer => exact Int.emod_emod_of_dvd v (dvd_refl _)

/-- A byte count through a variable of type `int`. -/
theorem ssize_through_int :
    CType.ssize.convert (CType.int.convert x) = CType.ssize.convert x ↔
      -2 ^ 31 ≤ CType.ssize.convert x ∧ CType.ssize.convert x < 2 ^ 31 := by
  simp only [CType.convert, Int.bmod_def]
  split_ifs <;> omega

theorem size_through_int :
    CType.size.convert (CType.int.convert x) = CType.size.convert x ↔
      CType.size.convert x < 2 ^ 31 ∨ 2 ^ 64 - 2 ^ 31 ≤ CType.size.convert x := by
  simp only [CType.convert, Int.bmod_def]
  split_ifs <;> omega

theorem int_of_ssize : CType.int.convert (CType.ssize.convert x) = CType.int.convert x := by
  simp only [CType.convert, Int.bmod_def]
  split_ifs <;> omega

/-- The results that the wrapper's own types can hold. -/
def Call.Narrow (c : Call) (r : Int) : Prop :=
  match c with
  | .read _ _ _ | .write _ _ _ => -2 ^ 31 ≤ r ∧ r < 2 ^ 31
  | .fwrite _ _ _ _ => r < 2 ^ 31 ∨ 2 ^ 64 - 2 ^ 31 ≤ r
  | _ => True

theorem passed_eq_iff (libc : Libc) (c : Call) :
    (wrapper c).passed (libc.real c.real).1 = c.result libc ↔ c.Narrow (c.result libc) := by
  cases c with
  | read fd buf count =>
    change CType.ssize.convert (CType.int.convert (CType.int.convert _)) = CType.ssize.convert _ ↔ _
    rw [CType.convert_convert]
    exact ssize_through_int
  | write fd buf count =>
    change CType.ssize.convert (CType.int.convert (CType.ssize.convert _)) = CType.ssize.convert _ ↔ _
    rw [int_of_ssize]
    exact ssize_through_int
  | fwrite ptr size nitems stream =>
    change CType.size.convert (CType.int.convert (CType.int.convert _)) = CType.size.convert _ ↔ _
    rw [CType.convert_convert]
    exact size_through_int
  | _ =>
    refine iff_of_true ?_ trivial
    exact (CType.convert_convert _ _).trans (CType.convert_convert _ _)

/-- The real function is called once, with the caller's arguments, and its result gets back. -/
def Preserved (libc : Libc) (c : Call) (errno : Int) : Prop :=
  ∃ s, (wrapper c).run libc ⟨errno, []⟩ = .ok (c.result libc) s ∧ s.calls = [c.real]

/-- A wrapper preserves the call exactly when its helpers come back and, for `read`, `write`
and `fwrite`, the result fits the `int` that it is stored in. -/
theorem preserved_iff (libc : Libc) (c : Call) (errno : Int) :
    Preserved libc c errno ↔ Loggable libc c ∧ c.Narrow (c.result libc) := by
  rw [← passed_eq_iff]
  constructor
  · rintro ⟨s, run, _⟩
    obtain ⟨loggable, returned, _⟩ := wrapper_run_ok.mp run
    exact ⟨loggable, returned.symm⟩
  · rintro ⟨loggable, returned⟩
    exact ⟨_, wrapper_run_ok.mpr ⟨loggable, returned.symm, rfl⟩, rfl⟩

/-- A library in which every helper succeeds. -/
def calm (rax : BitVec 64) (failure : Option Int) : Libc where
  finds _ := true
  real _ := (rax, failure)
  realpath _ path := .found path
  fileno _ := (3, none)
  readlink _ _ := none
  getenv := some 3
  dprintf _ := none
  dlclose := none
  byte _ _ := some 0

/-- `fwrite` of 2^31 items: the caller sees 2^64 - 2^31. -/
theorem fwrite_not_preserved :
    let c := Call.fwrite 0x1000 1 (2 ^ 31) 5
    let libc := calm (2 ^ 31) none
    c.result libc = 2 ^ 31 ∧
      (wrapper c).run libc ⟨0, []⟩ = .ok (2 ^ 64 - 2 ^ 31) ⟨0, [c.real]⟩ ∧ ¬ Preserved libc c 0 := by
  refine ⟨by decide, rfl, ?_⟩
  rintro ⟨s, run, _⟩
  cases run

end Results

section Errno

variable (libc : Libc) (c : Call) {e : Int}

/-- The error of `realpath` or `readlink` where a wrapper calls it after the real function. -/
def Call.lookupFailure : Option Int :=
  match c with
  | .chmod pathname _ | .creat pathname _ | .creat64 pathname _ | .chown pathname _ _
  | .rename _ pathname =>
    match libc.realpath [c.real] pathname with
    | .found _ => none
    | .failed errno _ => some errno
  | .read fd _ _ => libc.readlink [c.real] fd
  | _ => none

theorem lastFailure_ending :
    lastFailure libc [c.real] (wrapper c).ending =
      libc.dlclose.or ((libc.getenv.bind libc.dprintf).or (c.lookupFailure libc)) := by
  have ending (hs : List Helper) :
      lastFailure libc [c.real] (hs ++ [.dprintf, .dlclose]) =
        libc.dlclose.or ((libc.getenv.bind libc.dprintf).or (lastFailure libc [c.real] hs)) := by
    induction hs with
    | nil => simp [lastFailure, Helper.failure]
    | cons h hs ih =>
      rw [List.cons_append, lastFailure, ih, lastFailure, Option.or_assoc, Option.or_assoc]
  rw [Wrapper.ending, ending]
  congr 2
  cases c <;> rfl

/-- After a real call that fails with `e`, the caller finds `e` in `errno` unless a helper
after the call fails too, and then the error of the last one that does. -/
theorem errno_after_failure (fails : (libc.real c.real).2 = some e) (errno : Int) :
    (Loggable libc c → ∃ v s, (wrapper c).run libc ⟨errno, []⟩ = .ok v s) ∧
      ∀ v s, (wrapper c).run libc ⟨errno, []⟩ = .ok v s →
        s.errno = (libc.dlclose.or
          ((libc.getenv.bind libc.dprintf).or (c.lookupFailure libc))).getD e := by
  constructor
  · intro loggable
    exact ⟨_, _, wrapper_run_ok.mpr ⟨loggable, rfl, rfl⟩⟩
  · intro v s run
    obtain ⟨_, _, rfl⟩ := wrapper_run_ok.mp run
    rw [lastFailure_ending, Call.errno, fails, Option.getD_some]

/-- `chmod` fails with `ENOENT`, and `realpath` with `ENAMETOOLONG`. -/
theorem errno_after_failure_chmod :
    ∃ v s, (wrapper (.chmod "/gone" 0o644)).run
        { calm (-1) (some 2) with realpath := fun _ _ => .failed 36 0 } ⟨0, []⟩ = .ok v s ∧
      s.errno = 36 := by
  obtain ⟨returns, after⟩ := errno_after_failure
    { calm (-1) (some 2) with realpath := fun _ _ => .failed 36 0 } (.chmod "/gone" 0o644) rfl 0
  have path : "/gone".utf8ByteSize < 1024 := by decide
  obtain ⟨v, s, run⟩ := returns ⟨rfl, by simp [wrapper, chmod, resolvingAfter],
    by simp [wrapper, chmod, resolvingAfter, Wrapper.ending, Helper.Safe, calm, path]⟩
  exact ⟨v, s, run, after v s run⟩

/-- An interrupted `read` whose log line cannot be written reads as `EBADF`. -/
theorem read_loses_errno :
    let libc := { calm (-1) (some 4) with dprintf := fun _ => some 9 }
    (libc.real (Call.read 0 0x1000 10).real).2 = some 4 ∧
      ∃ s, (wrapper (.read 0 0x1000 10)).run libc ⟨0, []⟩ = .ok (-1) s ∧ s.errno = 9 :=
  ⟨rfl, _, rfl, rfl⟩

end Errno

end UnixProgramming.Logger
