import UnixProgramming.Sdb.Code
import UnixProgramming.Sdb.Step

/-!
# A small debuggee

A few x86-64 instructions on a process without hidden state. Its programs are
steady and lawful, whatever their code is, as long as the code is not writable.
`sampleHost` puts one of them behind an ELF file with a `.text` section.
-/

namespace UnixProgramming.Sdb.Sample

open Memory Transition

def sigsegv : Signal := ⟨11, by decide⟩

def sigill : Signal := ⟨4, by decide⟩

abbrev Process := Tracee Unit

def Process.advance (t : Process) (n : Nat) : Process :=
  { t with regs := setRip t.regs (rip t.regs + BitVec.ofNat 64 n) }

/-- Byte `i` behind the instruction pointer. -/
def Process.code (t : Process) (i : Nat) : Option Byte := t.mem (rip t.regs + BitVec.ofNat 64 i)

/-- `mov reg, imm32`. -/
def Process.movImm (t : Process) (reg : Fin 27) : Event Unit :=
  match t.code 1, t.code 2, t.code 3, t.code 4 with
  | some b1, some b2, some b3, some b4 =>
    let t' := t.advance 5
    .next { t' with regs := Function.update t'.regs reg ((b4 ++ b3 ++ b2 ++ b1).setWidth 64) }
  | _, _, _, _ => .stop sigsegv t

/-- `stosb`: the low byte of `rax` goes to where `rdi` points. -/
def Process.stosb (t : Process) (writable : Addr → Bool) : Event Unit :=
  let dst := t.regs 14
  if writable dst ∧ (t.mem dst).isSome then
    let t' := t.advance 1
    .next { t' with
      regs := Function.update t'.regs 14 (dst + 1)
      mem := Function.update t.mem dst (some ((t.regs 10).setWidth 8)) }
  else
    .stop sigsegv t

/-- `exit(edi)`; every other call fails with `ENOSYS`. -/
def Process.syscall (t : Process) : Event Unit :=
  if t.regs 10 = 60 then
    .exited ((t.regs 14).setWidth 8)
  else
    let t' := t.advance 2
    .next { t' with regs := Function.update t'.regs 10 (-38) }

/-- The two-byte instructions; of these only `syscall` is known. -/
def Process.twoByte (t : Process) : Event Unit :=
  if t.code 1 = some 0x05 then t.syscall else .stop sigill t

def step (writable : Addr → Bool) (t : Process) : Event Unit :=
  match t.code 0 with
  | none => .stop sigsegv t
  | some b =>
    if b = 0x90 then .next (t.advance 1)
    else if b = int3 then .stop sigtrap (t.advance 1)
    else if b = 0xaa then t.stosb writable
    else if b = 0xeb then
      match t.code 1 with
      | none => .stop sigsegv t
      | some rel =>
        .next { t with regs := setRip t.regs (rip t.regs + 2 + rel.signExtend 64) }
    else if b = 0xb8 then t.movImm 10
    else if b = 0xbf then t.movImm 14
    else if b = 0x0f then t.twoByte
    else .stop sigill t

def program (writable : Addr → Bool) (image : Process) : Program Unit := ⟨image, step writable⟩

/-- The length of the instruction that starts with byte `b`. -/
def length (b : Byte) : Nat :=
  if b = 0xeb ∨ b = 0x0f then 2 else if b = 0xb8 ∨ b = 0xbf then 5 else 1

theorem length_le (b : Byte) : length b ≤ 5 := by
  unfold length
  split
  · decide
  · split <;> decide

/-- Nothing is known about instructions outside the code but that they are short. -/
def len (writable : Addr → Bool) (image : Process) (a : Addr) : Nat :=
  if writable a then 5 else length ((image.mem a).getD 0)

def code (writable : Addr → Bool) : Set Addr := {x | writable x = false}

section Laws

variable {writable : Addr → Bool} {image t t' : Process}

/-- One step writes at most one mapped, writable byte. -/
theorem step_mem (moved : (step writable t).tracee? = some t') {x : Addr}
    (kept : writable x = false ∨ t.mem x = none) : t'.mem x = t.mem x := by
  have movImm {reg} (h : (t.movImm reg).tracee? = some t') : t'.mem x = t.mem x := by
    unfold Process.movImm at h
    split at h <;> cases h <;> rfl
  have stosb (h : (t.stosb writable).tracee? = some t') : t'.mem x = t.mem x := by
    unfold Process.stosb at h
    dsimp only at h
    split at h
    · next written =>
      cases h
      refine Function.update_of_ne ?_ _ _
      rintro rfl
      obtain shut | unmapped := kept
      · rw [shut] at written
        cases written.1
      · rw [unmapped] at written
        cases written.2
    · cases h
      rfl
  have twoByte (h : t.twoByte.tracee? = some t') : t'.mem x = t.mem x := by
    unfold Process.twoByte Process.syscall at h
    dsimp only at h
    split_ifs at h <;> cases h <;> rfl
  unfold step at moved
  grind [Process.advance, Event.tracee?]

theorem steady (null : image.mem 0 = none) : Steady (program writable image) (code writable) where
  null := null
  keep _ _ _ _ moved _ hx := step_mem moved (.inl hx)
  keep_null _ _ _ _ unmapped moved := (step_mem moved (.inr unmapped)).trans unmapped

variable {m : Addr → Option Byte} {n : Nat}

/-- `t` and its recoding show the same `n` bytes at the instruction pointer. -/
def SameFetch (writable : Addr → Bool) (m : Addr → Option Byte) (t : Process) (n : Nat) : Prop :=
  ∀ i < n, Process.code (t.recode (code writable) m) i = t.code i

theorem movImm_recode (same : SameFetch writable m t 5) (reg : Fin 27) :
    Process.movImm (t.recode (code writable) m) reg =
      (t.movImm reg).map (Tracee.recode (code writable) m) := by
  unfold Process.movImm
  rw [same 1 (by decide), same 2 (by decide), same 3 (by decide), same 4 (by decide)]
  split <;> rfl

theorem stosb_recode (t : Process) :
    Process.stosb (t.recode (code writable) m) writable =
      (t.stosb writable).map (Tracee.recode (code writable) m) := by
  unfold Process.stosb
  dsimp only [Tracee.recode_regs]
  by_cases opened : writable (t.regs 14) = true
  · have data : t.regs 14 ∉ code writable := by simp [code, opened]
    rw [Tracee.recode_mem_of_notMem data]
    split
    · have written := Tracee.recode_update (m := m)
        { t.advance 1 with regs := Function.update (t.advance 1).regs 14 (t.regs 14 + 1) } data
        (some ((t.regs 10).setWidth 8))
      exact congrArg Event.next written.symm
    · rfl
  · rw [if_neg fun both => opened both.1, if_neg fun both => opened both.1]
    rfl

theorem twoByte_recode (same : SameFetch writable m t 2) :
    Process.twoByte (t.recode (code writable) m) =
      t.twoByte.map (Tracee.recode (code writable) m) := by
  unfold Process.twoByte Process.syscall
  rw [same 1 (by decide)]
  dsimp only [Tracee.recode_regs]
  by_cases known : t.code 1 = some 0x05
  · by_cases leaves : t.regs 10 = 60 <;> simp only [known, leaves, if_true, if_false] <;> rfl
  · simp only [known, if_false]
    rfl

theorem step_recode (same : SameFetch writable m t n)
    (enough : ∀ b, t.code 0 = some b → length b ≤ n) (some_byte : 0 < n) :
    step writable (t.recode (code writable) m) =
      (step writable t).map (Tracee.recode (code writable) m) := by
  unfold step
  rw [same 0 some_byte]
  cases first : t.code 0 with
  | none => rfl
  | some b =>
    have fits := enough b first
    have fetched {k : Nat} (h : k ≤ length b) : SameFetch writable m t k :=
      fun i hi => same i (by omega)
    dsimp only
    split_ifs with nop trap store jump eax edi call
    · rfl
    · rfl
    · exact stosb_recode t
    · rw [fetched (k := 2) (by simp [length, jump]) 1 (by decide)]
      split <;> rfl
    · exact movImm_recode (fetched (by simp [length, eax])) 10
    · exact movImm_recode (fetched (by simp [length, edi])) 14
    · exact twoByte_recode (fetched (by simp [length, call]))
    · rfl

theorem lawful (writable : Addr → Bool) (image : Process) :
    Lawful (program writable image) (code writable) (len writable image) where
  trap t planted := by
    have first : Process.code t 0 = some int3 := by simpa [Process.code] using planted
    change step writable t = _
    unfold step
    rw [first]
    rfl
  own t m original agree := by
    have short : len writable image (rip t.regs) ≤ 5 := by
      unfold len
      split
      · decide
      · exact length_le _
    refine step_recode (n := len writable image (rip t.regs)) (fun i hi => ?_) (fun b first => ?_) ?_
    · by_cases inside : rip t.regs + BitVec.ofNat 64 i ∈ code writable
      · exact (Tracee.recode_mem_of_mem inside).trans
          (agree _ (add_mem_window _ hi (by omega)) inside)
      · exact Tracee.recode_mem_of_notMem inside
    · unfold len
      split
      · exact length_le b
      · next shut =>
        have inside : rip t.regs ∈ code writable := by simpa [code] using shut
        have byte : t.mem (rip t.regs) = some b := by simpa [Process.code] using first
        have start : image.mem (rip t.regs) = some b := (original _ inside).symm.trans byte
        rw [start]
        exact le_rfl
    · unfold len length
      split_ifs <;> decide

end Laws

section Host

/-- `text` ends where the page of data begins. -/
def base (text : List Byte) : Addr := 0x402000 - BitVec.ofNat 64 text.length

/-- A page of code, with `text` at its end, and a page of zeros behind it. -/
def image (text : List Byte) : Process where
  regs := setRip (fun _ => 0) (base text)
  mem x :=
    if x ∈ window 0x401000 0x2000 then some (text.getD (x - base text).toNat 0) else none
  hidden := ()

def data (x : Addr) : Bool := x ∈ window 0x402000 0x1000

def sample (text : List Byte) : Program Unit := program data (image text)

theorem image_null (text : List Byte) : (image text).mem 0 = none := by
  have low : (0 : Addr) ∉ window 0x401000 0x2000 := by
    rw [mem_window]
    decide
  simp only [image, low, if_false]

theorem sample_steady (text : List Byte) : Steady (sample text) (code data) :=
  steady (image_null text)

theorem sample_lawful (text : List Byte) :
    Lawful (sample text) (code data) (len data (image text)) := lawful data (image text)

/-- The `n` low bytes of `v`. -/
def littleEndian (v : Nat) : Nat → List Byte
  | 0 => []
  | n + 1 => BitVec.ofNat 8 v :: littleEndian (v / 256) n

def sectionHeader (name offset size : Nat) : List Byte :=
  littleEndian name 4 ++ littleEndian 0 20 ++ littleEndian offset 8 ++ littleEndian size 8 ++
    littleEndian 0 24

/-- The empty name, `.text` and `.shstrtab`. -/
def names : List Byte :=
  [0x00, 0x2e, 0x74, 0x65, 0x78, 0x74, 0x00,
    0x2e, 0x73, 0x68, 0x73, 0x74, 0x72, 0x74, 0x61, 0x62, 0x00]

def elf (text : List Byte) : List Byte :=
  [0x7f, 0x45, 0x4c, 0x46, 0x02, 0x01, 0x01] ++ littleEndian 0 9 ++
    littleEndian 2 2 ++ littleEndian 0x3e 2 ++ littleEndian 1 4 ++
    littleEndian (base text).toNat 8 ++ littleEndian 0 8 ++ littleEndian 64 8 ++
    littleEndian 0 4 ++ littleEndian 64 2 ++ littleEndian 0 4 ++ littleEndian 64 2 ++
    littleEndian 3 2 ++ littleEndian 2 2 ++
    sectionHeader 0 0 0 ++ sectionHeader 1 (256 + names.length) text.length ++
    sectionHeader 7 256 names.length ++ names ++ text

def host (text : List Byte) : Host Unit where
  file _ := some (elf text)
  exec _ := some (sample text)
  fork k := some (4242 + k)
  csOpen := true
  csDisasm bytes _ :=
    bytes.head?.map fun b => ⟨length b, bytes.take (length b), "insn", ""⟩
  maps _ := none
  uninit := ⟨0, 0, 0, 0, fun _ => 0, fun _ => 0⟩

/-- The first commands of the debugger, on a sample. -/
theorem run_start {text : List Byte} {path : String} {cs : List Command} {w' : World Unit}
    (run : Run (Step (host text)) (.load path :: .start :: cs) (World.init (host text)) w') :
    ∃ w w₀ c₀, Reachable (host text) w ∧ w.info.state = .loaded ∧ Step (host text) .start w w₀ ∧
      w₀.bpRestore = .empty ∧ w₀.child = some c₀ ∧ c₀.prog = sample text ∧
      c₀.tracee = image text ∧ Run (Step (host text)) cs w₀ w' := by
  cases run with
  | @cons _ _ _ w _ first rest =>
    obtain ⟨n, ok⟩ := first
    obtain ⟨busy, -⟩ | ⟨-, info, l, loaded, -, made⟩ := load_ok ok
    · exact absurd rfl busy
    have state : w.info.state = .loaded := by rw [made]; exact loaded
    cases rest with
    | @cons _ _ _ w₀ _ second rest =>
      obtain ⟨k, ok'⟩ := second
      have came_back : start (host text) k w = .ok () w₀ := ok'
      obtain ⟨idle, -⟩ | begun := start_ok came_back
      · exact absurd state idle
      obtain ⟨c₀, born, found, untouched, kept, -⟩ := begun.fresh
      have own : sample text = c₀.prog := Option.some.inj found
      refine ⟨w, w₀, c₀, ⟨_, .single ⟨n, ok⟩⟩, state, ⟨k, ok'⟩, ?_, born, own.symm, ?_, rest⟩
      · rw [kept, made]
        rfl
      · rw [untouched, ← own]
        rfl

end Host

end UnixProgramming.Sdb.Sample
