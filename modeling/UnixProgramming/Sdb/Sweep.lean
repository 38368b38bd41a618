import UnixProgramming.Sdb.Request

/-!
# The instruction sweep of `start`

`get_orig_code` decodes one instruction after the other from memory that it does not
change, so whether it ends depends on this memory and on the decoder alone.
-/

namespace UnixProgramming.Sdb

open Memory Stateful

variable {κ : Type}

section Window

/-- The words of the window at `ptr` that can be read, and zeros behind them. -/
def readWords (mem : Addr → Option Byte) (ptr : Addr) : Nat → List Byte
  | 0 => []
  | k + 1 =>
    match peek mem ptr with
    | none => List.replicate (8 * (k + 1)) 0
    | some word => (List.range 8).map (byte word) ++ readWords mem (ptr + 8) k

/-- The bytes that the decoder sees at `addr`. -/
def codeAt (mem : Addr → Option Byte) (addr : Addr) : List Byte :=
  (if addr < addr + 64 then readWords mem addr 8 else List.replicate 64 0).take 63

theorem length_readWords (mem : Addr → Option Byte) (ptr : Addr) (k : Nat) :
    (readWords mem ptr k).length = 8 * k := by
  induction k generalizing ptr with
  | zero => rfl
  | succ k ih =>
    rw [readWords]
    split
    · exact List.length_replicate
    · rw [List.length_append, ih, List.length_map, List.length_range]
      omega

theorem length_codeAt (mem : Addr → Option Byte) (addr : Addr) : (codeAt mem addr).length = 63 := by
  unfold codeAt
  split <;> simp [length_readWords]

end Window

section Sweep

variable (host : Host κ)

/-- Decoding one instruction after the other from an address ends: at `stop`, or where
the decoder finds no instruction. -/
inductive Sweeps (mem : Addr → Option Byte) (stop : Addr) : Addr → Prop where
  | done {addr} : ¬ addr < stop → Sweeps mem stop addr
  | undecodable {addr} : addr < stop → host.csDisasm (codeAt mem addr) addr = none →
      Sweeps mem stop addr
  | next {addr insn} : addr < stop → host.csDisasm (codeAt mem addr) addr = some insn →
      Sweeps mem stop (addr + BitVec.ofNat 64 insn.size) → Sweeps mem stop addr

variable (info : ProgInfo) (bp : Breakpoint) (pid : Int) (prog : Program κ) (t : Tracee κ)
  (forks : Nat)

@[simp] theorem peekText?_stopped (ins : List Instruction1) (log : List Effect) (addr : Addr) :
    peekText? pid addr ⟨info, bp, ins, some ⟨pid, prog, t, none⟩, forks, log⟩ =
      .ok (peek t.mem addr)
        ⟨info, bp, ins, some ⟨pid, prog, t, none⟩, forks, .ptrace pid (.peekText addr) :: log⟩ := by
  simp [peekText?, emit]

theorem readWindow_stopped (ins : List Instruction1) (log : List Effect) (ptr : Addr) (k : Nat) :
    ∃ l, readWindow pid ptr k ⟨info, bp, ins, some ⟨pid, prog, t, none⟩, forks, log⟩ =
      .ok (readWords t.mem ptr k) ⟨info, bp, ins, some ⟨pid, prog, t, none⟩, forks, l⟩ := by
  induction k generalizing ptr log with
  | zero => exact ⟨log, rfl⟩
  | succ k ih =>
    cases read : peek t.mem ptr with
    | none =>
      apply Exists.intro
      simp [readWindow, readWords, read]
      rfl
    | some word =>
      obtain ⟨l, rest⟩ := ih (.ptrace pid (.peekText ptr) :: log) (ptr + 8)
      refine ⟨l, ?_⟩
      simp only [readWindow, readWords, bind_apply, peekText?_stopped, read, rest, pure_apply]

/-- The entry of `orig_instructions` for an instruction. -/
def Insn.record (insn : Insn) (addr : Addr) : Instruction1 :=
  ⟨addr, insn.bytes, insn.size, insn.mnemonic, insn.opStr⟩

theorem disassemble_stopped (ins : List Instruction1) (log : List Effect) (addr : Addr) :
    ∃ l, disassemble host pid addr ⟨info, bp, ins, some ⟨pid, prog, t, none⟩, forks, log⟩ =
      match host.csDisasm (codeAt t.mem addr) addr with
      | none => .ok false ⟨info, bp, ins, some ⟨pid, prog, t, none⟩, forks, l⟩
      | some insn => .ok true
          ⟨info, bp, ins ++ [insn.record addr], some ⟨pid, prog, t, none⟩, forks, l⟩ := by
  have window : ∃ buf l, codeAt t.mem addr = buf.take 63 ∧
      (if addr < addr + 64 then readWindow pid addr 8 else pure (List.replicate 64 0))
        ⟨info, bp, ins, some ⟨pid, prog, t, none⟩, forks, log⟩ =
        .ok buf ⟨info, bp, ins, some ⟨pid, prog, t, none⟩, forks, l⟩ := by
    unfold codeAt
    split
    · obtain ⟨l, words⟩ := readWindow_stopped info bp pid prog t forks ins log addr 8
      exact ⟨_, l, rfl, words⟩
    · exact ⟨_, log, rfl, rfl⟩
  have joined : disassemble host pid addr =
      (if addr < addr + 64 then readWindow pid addr 8 else pure (List.replicate 64 0)) >>= fun buf =>
        match host.csDisasm (buf.take 63) addr with
        | none => do
          stderr "** cs_disasm error.\n"
          return false
        | some insn => do
          modify fun w => { w with origInstructions := w.origInstructions ++ [insn.record addr] }
          return true := by
    unfold disassemble
    split <;> rfl
  obtain ⟨buf, l, seen, filled⟩ := window
  rw [seen, joined, bind_apply, filled]
  cases decoded : host.csDisasm (buf.take 63) addr with
  | none =>
    apply Exists.intro
    simp [decoded, stderr, emit]
    rfl
  | some insn =>
    apply Exists.intro
    simp [decoded]
    rfl

/-- One turn of the loop. -/
theorem sweep_stopped {stop addr : Addr} (more : addr < stop) (ins : List Instruction1)
    (log : List Effect) :
    ∃ l, ∀ n, sweep host pid stop (n + 1) addr ⟨info, bp, ins, some ⟨pid, prog, t, none⟩, forks, log⟩ =
      match host.csDisasm (codeAt t.mem addr) addr with
      | none => .ok () ⟨info, bp, ins, some ⟨pid, prog, t, none⟩, forks, l⟩
      | some insn => sweep host pid stop n (addr + BitVec.ofNat 64 insn.size)
          ⟨info, bp, ins ++ [insn.record addr], some ⟨pid, prog, t, none⟩, forks, l⟩ := by
  obtain ⟨l, decoded⟩ := disassemble_stopped host info bp pid prog t forks ins log addr
  refine ⟨l, fun n => ?_⟩
  cases found : host.csDisasm (codeAt t.mem addr) addr with
  | none =>
    rw [found] at decoded
    simp only [sweep, more, decoded, if_true, bind_apply]
    rfl
  | some insn =>
    rw [found] at decoded
    simp only [sweep, more, decoded, if_true, bind_apply, get_apply, List.getLast?_append,
      List.getLast?_singleton, Option.some_or]
    rfl

/-- The loop does nothing from the end on. -/
theorem sweep_ended {stop addr : Addr} (ended : ¬ addr < stop) (n : Nat) (w : World κ) :
    sweep host pid stop n addr w = .ok () w := by
  cases n with
  | zero =>
    rw [sweep, if_neg ended]
    rfl
  | succ n =>
    rw [sweep, if_neg ended]
    rfl

theorem sweeps_of_returns {stop addr : Addr} {ins : List Instruction1} {log : List Effect} {n : Nat}
    {w' : World κ} (ok : sweep host pid stop n addr
      ⟨info, bp, ins, some ⟨pid, prog, t, none⟩, forks, log⟩ = .ok () w') :
    Sweeps host t.mem stop addr := by
  induction n generalizing addr ins log with
  | zero =>
    by_cases more : addr < stop
    · simp [sweep, more] at ok
    · exact .done more
  | succ n ih =>
    by_cases more : addr < stop
    swap
    · exact .done more
    obtain ⟨l, turn⟩ := sweep_stopped host info bp pid prog t forks more ins log
    rw [turn] at ok
    cases found : host.csDisasm (codeAt t.mem addr) addr with
    | none => exact .undecodable more found
    | some insn =>
      rw [found] at ok
      exact .next more found (ih ok)

theorem sweep_returns_of_sweeps {stop addr : Addr} (ends : Sweeps host t.mem stop addr)
    (ins : List Instruction1) (log : List Effect) :
    ∃ n w', sweep host pid stop n addr
      ⟨info, bp, ins, some ⟨pid, prog, t, none⟩, forks, log⟩ = .ok () w' := by
  induction ends generalizing ins log with
  | done stopped => exact ⟨0, _, sweep_ended host pid stopped 0 _⟩
  | @undecodable addr more found =>
    obtain ⟨l, turn⟩ := sweep_stopped host info bp pid prog t forks more ins log
    rw [found] at turn
    exact ⟨1, _, turn 0⟩
  | @next addr insn more found _ ih =>
    obtain ⟨l, turn⟩ := sweep_stopped host info bp pid prog t forks more ins log
    rw [found] at turn
    obtain ⟨n, w', rest⟩ := ih (ins ++ [insn.record addr]) l
    exact ⟨n + 1, w', (turn n).trans rest⟩

/-- The instructions that decoding one after the other records from an address on. -/
inductive Decodes (mem : Addr → Option Byte) (stop : Addr) : Addr → List Instruction1 → Prop where
  | done {addr} : ¬ addr < stop → Decodes mem stop addr []
  | undecodable {addr} : addr < stop → host.csDisasm (codeAt mem addr) addr = none →
      Decodes mem stop addr []
  | next {addr insn rest} : addr < stop → host.csDisasm (codeAt mem addr) addr = some insn →
      Decodes mem stop (addr + BitVec.ofNat 64 insn.size) rest →
      Decodes mem stop addr (insn.record addr :: rest)

theorem sweep_decodes {stop addr : Addr} {ins : List Instruction1} {log : List Effect} {n : Nat}
    {w' : World κ} (ok : sweep host pid stop n addr
      ⟨info, bp, ins, some ⟨pid, prog, t, none⟩, forks, log⟩ = .ok () w') :
    ∃ new, w'.origInstructions = ins ++ new ∧ Decodes host t.mem stop addr new := by
  induction n generalizing addr ins log with
  | zero =>
    by_cases more : addr < stop
    · simp [sweep, more] at ok
    · rw [sweep_ended host pid more] at ok
      cases ok
      exact ⟨[], (List.append_nil ins).symm, .done more⟩
  | succ n ih =>
    by_cases more : addr < stop
    swap
    · rw [sweep_ended host pid more] at ok
      cases ok
      exact ⟨[], (List.append_nil ins).symm, .done more⟩
    obtain ⟨l, turn⟩ := sweep_stopped host info bp pid prog t forks more ins log
    rw [turn] at ok
    cases found : host.csDisasm (codeAt t.mem addr) addr with
    | none =>
      rw [found] at ok
      cases ok
      exact ⟨[], (List.append_nil ins).symm, .undecodable more found⟩
    | some insn =>
      rw [found] at ok
      obtain ⟨new, listed, rest⟩ := ih ok
      exact ⟨insn.record addr :: new, by rw [listed, List.append_assoc]; rfl, .next more found rest⟩

end Sweep

section Chains

variable {host : Host κ} {mem : Addr → Option Byte} {stop addr : Addr} {new new' : List Instruction1}

theorem Decodes.unique (h : Decodes host mem stop addr new) (h' : Decodes host mem stop addr new') :
    new = new' := by
  induction h generalizing new' with
  | done ended =>
    cases h' with
    | done => rfl
    | undecodable => rfl
    | next more => exact absurd more ended
  | undecodable more none =>
    cases h' with
    | done => rfl
    | undecodable => rfl
    | next _ found => cases none.symm.trans found
  | next more found _ ih =>
    cases h' with
    | done ended => exact absurd more ended
    | undecodable _ none => cases none.symm.trans found
    | next _ found' rest' =>
      obtain rfl := Option.some.inj (found.symm.trans found')
      rw [ih rest']

/-- From any of its instructions on, the rest is what is decoded there. -/
theorem Decodes.suffix {before after : List Instruction1} {i : Instruction1}
    (h : Decodes host mem stop addr (before ++ i :: after)) :
    Decodes host mem stop i.addr (i :: after) := by
  induction before generalizing addr with
  | nil =>
    cases h with
    | next more found rest => exact .next more found rest
  | cons j before ih =>
    cases h with
    | next _ _ rest => exact ih rest

/-- No address is recorded twice. -/
theorem Decodes.distinct (h : Decodes host mem stop addr new) :
    new.Pairwise fun i j => i.addr ≠ j.addr := by
  induction h with
  | done => exact .nil
  | undecodable => exact .nil
  | @next addr insn rest more found later ih =>
    refine List.pairwise_cons.mpr ⟨fun j listed same => ?_, ih⟩
    obtain ⟨before, after, rfl⟩ := List.append_of_mem listed
    have here : addr = j.addr := same
    have again : Decodes host mem stop addr (j :: after) := by
      rw [here]
      exact later.suffix
    have whole := congrArg List.length (again.unique (.next more found later))
    simp at whole
    omega

end Chains

end UnixProgramming.Sdb
