import UnixProgramming.Sdb.Rule

/-!
# Commands that only print, and the requests on a stopped child

`SameButLog` holds of everything that reads and prints. The second half
runs each `ptrace` request and `waitpid` on a world whose child is stopped.
-/

namespace UnixProgramming.Sdb

open Memory Stateful

variable {κ : Type}

section Quiet

/-- Only the log may differ. -/
def SameButLog (w w' : World κ) : Prop := w' = { w with log := w'.log }

instance : Std.Refl (SameButLog (κ := κ)) := ⟨fun _ => rfl⟩

instance : IsTrans (World κ) SameButLog := ⟨fun _ _ _ h h' => by
  unfold SameButLog at *
  rw [h', h]⟩

theorem quiet : Reads (SameButLog (κ := κ)) := .of_emit fun _ => .modify fun _ => rfl

end Quiet

section Requests

variable (info : ProgInfo) (bp : Breakpoint) (ins : List Instruction1) (pid : Int)
  (prog : Program κ) (t : Tracee κ) (forks : Nat) (log : List Effect)

@[simp] theorem stopped?_mk :
    World.stopped? ⟨info, bp, ins, some ⟨pid, prog, t, none⟩, forks, log⟩ pid =
      some ⟨pid, prog, t, none⟩ := by simp [World.stopped?]

@[simp] theorem peekText_stopped (addr : Addr) :
    peekText pid addr ⟨info, bp, ins, some ⟨pid, prog, t, none⟩, forks, log⟩ =
      .ok ((peek t.mem addr).getD (-1))
        ⟨info, bp, ins, some ⟨pid, prog, t, none⟩, forks, .ptrace pid (.peekText addr) :: log⟩ := by
  simp [peekText, peekText?, emit]

@[simp] theorem pokeText_stopped (addr : Addr) (word : BitVec 64) :
    pokeText pid addr word ⟨info, bp, ins, some ⟨pid, prog, t, none⟩, forks, log⟩ =
      match poke t.mem addr word with
      | none => .ok false ⟨info, bp, ins, some ⟨pid, prog, t, none⟩, forks,
          .ptrace pid (.pokeText addr word) :: log⟩
      | some mem => .ok true ⟨info, bp, ins, some ⟨pid, prog, { t with mem := mem }, none⟩, forks,
          .ptrace pid (.pokeText addr word) :: log⟩ := by
  cases written : poke t.mem addr word <;> simp [pokeText, emit, setTracee, written]

@[simp] theorem getRegs_stopped :
    getRegs pid ⟨info, bp, ins, some ⟨pid, prog, t, none⟩, forks, log⟩ =
      .ok (some t.regs)
        ⟨info, bp, ins, some ⟨pid, prog, t, none⟩, forks, .ptrace pid .getRegs :: log⟩ := by
  simp [getRegs, emit]

@[simp] theorem setRegs_stopped (regs : UserRegs) :
    setRegs pid regs ⟨info, bp, ins, some ⟨pid, prog, t, none⟩, forks, log⟩ =
      .ok true ⟨info, bp, ins, some ⟨pid, prog, { t with regs := regs }, none⟩, forks,
        .ptrace pid (.setRegs regs) :: log⟩ := by
  simp [setRegs, emit, setTracee]

@[simp] theorem resumeChild_stopped (how : Resume) :
    resumeChild pid how ⟨info, bp, ins, some ⟨pid, prog, t, none⟩, forks, log⟩ =
      .ok true ⟨info, bp, ins, some ⟨pid, prog, t, some how⟩, forks,
        .ptrace pid how.request :: log⟩ := by
  simp [resumeChild, emit]

@[simp] theorem waitpid_resumed (n : Nat) (how : Resume) :
    waitpid n pid ⟨info, bp, ins, some ⟨pid, prog, t, some how⟩, forks, log⟩ =
      match prog.answer n how t with
      | none => .error .waiting ⟨info, bp, ins, some ⟨pid, prog, t, some how⟩, forks, log⟩
      | some e => .ok (some e.status)
          ⟨info, bp, ins, e.tracee?.map fun t' => ⟨pid, prog, t', none⟩, forks, log⟩ := by
  cases answer : prog.answer n how t <;> simp [waitpid, answer]

/-! Requests after the child has ended. -/

@[simp] theorem peekText_gone (addr : Addr) :
    peekText (κ := κ) pid addr ⟨info, bp, ins, none, forks, log⟩ =
      .ok (-1) ⟨info, bp, ins, none, forks, .ptrace pid (.peekText addr) :: log⟩ := by
  simp [peekText, peekText?, emit, World.stopped?]

@[simp] theorem pokeText_gone (addr : Addr) (word : BitVec 64) :
    pokeText (κ := κ) pid addr word ⟨info, bp, ins, none, forks, log⟩ =
      .ok false ⟨info, bp, ins, none, forks, .ptrace pid (.pokeText addr word) :: log⟩ := by
  simp [pokeText, emit, World.stopped?]

@[simp] theorem getRegs_gone :
    getRegs (κ := κ) pid ⟨info, bp, ins, none, forks, log⟩ =
      .ok none ⟨info, bp, ins, none, forks, .ptrace pid .getRegs :: log⟩ := by
  simp [getRegs, emit, World.stopped?]

@[simp] theorem resumeChild_gone (how : Resume) :
    resumeChild (κ := κ) pid how ⟨info, bp, ins, none, forks, log⟩ =
      .ok false ⟨info, bp, ins, none, forks, .ptrace pid how.request :: log⟩ := by
  simp [resumeChild, emit, World.stopped?]

end Requests

end UnixProgramming.Sdb
