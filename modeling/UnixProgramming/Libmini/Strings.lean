import UnixProgramming.Libmini.Perror

/-!
# Strings in memory

`strlen` and `bzero` go through memory byte by byte. With them, `perror` hands the kernel
addresses and counts: what lies there are the texts that it writes.
-/

namespace UnixProgramming.Libmini

open Memory Stateful

section Loops

variable {m : Addr → BitVec 8} {a : Addr} {n : Nat}

/-- `strlen` with at most `n` turns of its loop, of which `count` have been made. -/
def strlenLoop (m : Addr → BitVec 8) : Nat → Addr → Word → Option Word
  | 0, _, _ => none
  | n + 1, s, count => if m s = 0 then some count else strlenLoop m n (s + 1) (count + 1)

def strlen (m : Addr → BitVec 8) (n : Nat) (s : Addr) : Option Word := strlenLoop m n s 0

def bzero (ptr : Addr) : Nat → (Addr → BitVec 8) → Addr → BitVec 8
  | 0, m => m
  | size + 1, m => bzero (ptr + 1) size (Function.update m ptr 0)

/-- The bytes of a text, without the zero behind them. -/
def encoded (text : String) : List (BitVec 8) := text.toList.map fun c => BitVec.ofNat 8 c.toNat

/-- A text lies in memory, with a zero behind it and none in it. -/
structure CString (m : Addr → BitVec 8) (a : Addr) (bytes : List (BitVec 8)) : Prop where
  stored : ∀ j b, bytes[j]? = some b → m (a + BitVec.ofNat 64 j) = b
  clear : 0 ∉ bytes
  ended : m (a + BitVec.ofNat 64 bytes.length) = 0

theorem CString.tail {b : BitVec 8} {bytes : List (BitVec 8)} (h : CString m a (b :: bytes)) :
    CString m (a + 1) bytes := by
  have next (j : Nat) : a + 1 + BitVec.ofNat 64 j = a + BitVec.ofNat 64 (j + 1) := by
    rw [Nat.add_comm j 1, BitVec.ofNat_add, BitVec.add_assoc]
    rfl
  refine ⟨fun j c at_j => ?_, fun zero => h.clear (List.mem_cons_of_mem _ zero), ?_⟩
  · rw [next]
    exact h.stored (j + 1) c at_j
  · rw [next]
    exact h.ended

theorem CString.head {b : BitVec 8} {bytes : List (BitVec 8)} (h : CString m a (b :: bytes)) :
    m a = b ∧ b ≠ 0 := by
  have first : m a = b := by simpa using h.stored 0 b rfl
  exact ⟨first, fun zero => h.clear (zero ▸ List.mem_cons_self)⟩

/-- The loop counts up to the zero. -/
theorem CString.strlenLoop {bytes : List (BitVec 8)} (h : CString m a bytes) (long : bytes.length < n)
    (count : Word) : strlenLoop m n a count = some (count + BitVec.ofNat 64 bytes.length) := by
  induction bytes generalizing a n count with
  | nil =>
    cases n with
    | zero => cases long
    | succ n =>
      have here : m a = 0 := by simpa using h.ended
      rw [Libmini.strlenLoop, if_pos here]
      simp
  | cons b bytes ih =>
    cases n with
    | zero => cases long
    | succ n =>
      rcases h.head with ⟨here, nonzero⟩
      rw [Libmini.strlenLoop, if_neg (here ▸ nonzero), ih h.tail (Nat.lt_of_succ_lt_succ long)]
      rw [List.length_cons, Nat.add_comm, BitVec.ofNat_add, BitVec.add_assoc]
      rfl

theorem CString.strlen {bytes : List (BitVec 8)} (h : CString m a bytes) (long : bytes.length < n) :
    strlen m n a = some (BitVec.ofNat 64 bytes.length) := by
  have whole := h.strlenLoop long 0
  rwa [zero_add] at whole

/-- `bzero` clears the bytes from an address on, and no others. -/
theorem bzero_eq (fits : n ≤ 2 ^ 64) : bzero a n m = splice m a n fun _ => 0 := by
  induction n generalizing a m with
  | zero =>
    funext x
    exact (splice_of_notMem (by simp [mem_window])).symm
  | succ n ih =>
    funext x
    rw [bzero, ih (by omega)]
    by_cases first : x = a
    · subst first
      have outside : x ∉ window (x + 1) n := by
        rw [mem_window]
        bv_omega
      have inside : x ∈ window x (n + 1) := by simp [mem_window]
      rw [splice_of_notMem outside, Function.update_self, splice, Set.piecewise_eq_of_mem _ _ _ inside]
    · have shift : x ∈ window a (n + 1) ↔ x ∈ window (a + 1) n := by
        have apart : (x - a).toNat ≠ 0 := fun zero => first (by bv_omega)
        rw [mem_window, mem_window]
        have one : (x - (a + 1)).toNat = (x - a).toNat - 1 := by bv_omega
        omega
      by_cases near : x ∈ window (a + 1) n
      · rw [splice, splice, Set.piecewise_eq_of_mem _ _ _ near, Set.piecewise_eq_of_mem _ _ _ (shift.mpr near)]
      · rw [splice_of_notMem near, splice_of_notMem (mt shift.mp near), Function.update_of_ne first]

end Loops

section Model

/-- One `write`. -/
structure WriteCall where
  fd : Word
  buf : Addr
  count : Word

/-- `errno`, and the writes so far. -/
structure Writes where
  errno : Word
  calls : List WriteCall

inductive MemoryFault where
  | outOfBounds
  /-- `strlen` finds no zero -/
  | unterminated

-- what lies in memory, the turns of `strlen`, where the literals are, and the kernel's results
variable (m : Addr → BitVec 8) (n : Nat) (literal : String → Addr) (results : Results)

def writeAt (buf : Addr) (count : Word) : EStateM MemoryFault Writes Unit :=
  modify fun s => {
    errno := ((Wrapper.write 2 buf count).run (results s.calls.length)).errno
    calls := s.calls ++ [⟨2, buf, count⟩] }

/-- `write(2, s, strlen(s))`. -/
def writeString (s : Addr) : EStateM MemoryFault Writes Unit :=
  match strlen m n s with
  | none => throw .unterminated
  | some count => writeAt results s count

def writeMessageAt (backup : Word) : EStateM MemoryFault Writes Unit := do
  let errno := (← get).errno
  if errno.toInt < 0 ∨ errno.toInt > 34 then
    writeString m n results (literal "Unknown")
  else
    match errmsg[backup.toNat]? with
    | none => throw .outOfBounds
    | some msg => writeString m n results (literal msg)
  writeAt results (literal "\n") 1

/-- `perror` on the address of its prefix. -/
def perrorAt (pre : Addr) : EStateM MemoryFault Writes Unit := do
  let backup := (← get).errno
  if pre ≠ 0 then
    writeString m n results pre
    writeAt results (literal ": ") 2
  writeMessageAt m n literal results backup

end Model

section Refinement

variable {m : Addr → BitVec 8} {n : Nat} {literal : String → Addr} {results : Results} {text : String} {a : Addr}

/-- The write hands the kernel the bytes of the text. -/
structure Passes (m : Addr → BitVec 8) (call : WriteCall) (text : String) : Prop where
  fd : call.fd = 2
  count : call.count = BitVec.ofNat 64 (encoded text).length
  stored : ∀ j b, (encoded text)[j]? = some b → m (call.buf + BitVec.ofNat 64 j) = b

/-- The writes of the texts so far. -/
structure Related (m : Addr → BitVec 8) (s : Writes) (t : Writing) : Prop where
  errno : s.errno = t.errno
  calls : List.Forall₂ (Passes m) s.calls t.written

/-- A text at an address, within the turns of `strlen`. -/
structure Lies (m : Addr → BitVec 8) (n : Nat) (a : Addr) (text : String) : Prop where
  string : CString m a (encoded text)
  long : (encoded text).length < n

/-- The literals of `perror` and its messages are in memory. -/
def Literals (m : Addr → BitVec 8) (n : Nat) (literal : String → Addr) : Prop :=
  ∀ text ∈ "Unknown" :: ": " :: "\n" :: errmsg, Lies m n (literal text) text

/-- The texts are overrun where the messages are. -/
def SameFault : MemoryFault → Fault → Prop
  | .outOfBounds, .outOfBounds => True
  | .unterminated, .outOfBounds => False

theorem Related.write {s : Writes} {t : Writing} (related : Related m s t) (lies : Lies m n a text) :
    Related m
      { errno := ((Wrapper.write 2 a (BitVec.ofNat 64 (encoded text).length)).run (results s.calls.length)).errno
        calls := s.calls ++ [⟨2, a, BitVec.ofNat 64 (encoded text).length⟩] }
      { errno := ((Wrapper.write 2 0 0).run (results t.written.length)).errno
        written := t.written ++ [text] } := by
  refine ⟨?_, List.rel_append related.calls (.cons ⟨rfl, rfl, lies.string.stored⟩ .nil)⟩
  rw [related.calls.length_eq]
  rfl

theorem writeAt_simulates {count : Word} (lies : Lies m n a text)
    (length : count = BitVec.ofNat 64 (encoded text).length) :
    Simulates SameFault (Related m) (writeAt results a count) (writeText results text) := by
  subst length
  exact .modify fun _ _ related => related.write lies

theorem writeString_simulates (lies : Lies m n a text) :
    Simulates SameFault (Related m) (writeString m n results a) (writeText results text) := by
  rw [writeString, lies.string.strlen lies.long]
  exact writeAt_simulates lies rfl

theorem writeMessageAt_simulates (literals : Literals m n literal) (backup : Word) :
    Simulates SameFault (Related m) (writeMessageAt m n literal results backup)
      (writeMessage results backup) := by
  refine .reads fun s t related => ?_
  rw [related.errno]
  have newline : Simulates SameFault (Related m) (writeAt results (literal "\n") 1) (writeText results "\n") :=
    writeAt_simulates (literals "\n" (by simp)) rfl
  dsimp only
  by_cases out : t.errno.toInt < 0 ∨ t.errno.toInt > 34
  · rw [if_pos out, if_pos out]
    exact .bind (writeString_simulates (literals "Unknown" (by simp))) fun _ => newline
  · rw [if_neg out, if_neg out]
    cases found : errmsg[backup.toNat]? with
    | none => exact .bind (.throw trivial) fun _ => newline
    | some msg =>
      have listed : msg ∈ errmsg := List.mem_of_getElem? found
      exact .bind (writeString_simulates (literals msg (by simp [listed]))) fun _ => newline

/-- The prefix is a text in memory, or the null pointer. -/
inductive Prefix (m : Addr → BitVec 8) (n : Nat) : Addr → Option String → Prop where
  | null : Prefix m n 0 none
  | text {b : Addr} {t : String} : b ≠ 0 → Lies m n b t → Prefix m n b (some t)

/-- What `perror` hands the kernel are the bytes of the texts that it should write, whatever the
kernel answers, and it overruns its messages in the same cases. -/
theorem perror_passes {pre : Addr} {text : Option String} (literals : Literals m n literal)
    (given : Prefix m n pre text) :
    Simulates SameFault (Related m) (perrorAt m n literal results pre) (perror results text) := by
  refine .reads fun s t related => ?_
  rw [related.errno]
  cases given with
  | null =>
    rw [if_neg fun nonnull => nonnull rfl]
    exact writeMessageAt_simulates literals _
  | text nonnull lies =>
    rw [if_pos nonnull]
    have colon : Simulates SameFault (Related m) (writeAt results (literal ": ") 2) (writeText results ": ") :=
      writeAt_simulates (literals ": " (by simp)) rfl
    exact .bind (writeString_simulates lies) fun _ => .bind colon fun _ => writeMessageAt_simulates literals _

end Refinement

section Sample

/-- A prefix, and the literals behind it. -/
def sampleTexts : List String := "open" :: "Unknown" :: ": " :: "\n" :: errmsg

/-- 64 bytes for each of the texts. -/
def sampleLiteral (text : String) : Addr := 0x1000 + BitVec.ofNat 64 (64 * sampleTexts.idxOf text)

def sampleMem (x : Addr) : BitVec 8 :=
  let place := (x - 0x1000).toNat
  ((encoded (sampleTexts.getD (place / 64) ""))[place % 64]?).getD 0

theorem sampleMem_at {text : String} (listed : text ∈ sampleTexts) {j : Nat} (inside : j < 64) :
    sampleMem (sampleLiteral text + BitVec.ofNat 64 j) = ((encoded text)[j]?).getD 0 := by
  have found : sampleTexts.idxOf text < 39 := List.idxOf_lt_length_iff.mpr listed
  have place : (sampleLiteral text + BitVec.ofNat 64 j - 0x1000).toNat = 64 * sampleTexts.idxOf text + j := by
    rw [sampleLiteral]
    bv_omega
  have this_text : sampleTexts.getD (sampleTexts.idxOf text) "" = text := by
    rw [List.getD_eq_getElem?_getD, List.getElem?_idxOf listed]
    rfl
  have row : (64 * sampleTexts.idxOf text + j) / 64 = sampleTexts.idxOf text := by omega
  have column : (64 * sampleTexts.idxOf text + j) % 64 = j := by omega
  rw [sampleMem, place, row, column, this_text]

theorem sampleTexts_fit : ∀ text ∈ sampleTexts, (encoded text).length < 64 ∧ 0 ∉ encoded text := by
  decide +kernel

theorem sample_lies {text : String} (listed : text ∈ sampleTexts) :
    Lies sampleMem 64 (sampleLiteral text) text := by
  rcases sampleTexts_fit text listed with ⟨short, clear⟩
  refine ⟨⟨fun j b at_j => ?_, clear, ?_⟩, short⟩
  · have inside := (List.getElem?_eq_some_iff.mp at_j).1
    rw [sampleMem_at listed (by omega), at_j]
    rfl
  · rw [sampleMem_at listed short, List.getElem?_eq_none le_rfl]
    rfl

theorem perror_passes_open : Literals sampleMem 64 sampleLiteral ∧ Prefix sampleMem 64 0x1000 (some "open") ∧
    Simulates SameFault (Related sampleMem) (perrorAt sampleMem 64 sampleLiteral (fun _ => 1) 0x1000)
      (perror (fun _ => 1) (some "open")) := by
  have literals : Literals sampleMem 64 sampleLiteral :=
    fun text listed => sample_lies (List.mem_cons_of_mem _ listed)
  have given : Prefix sampleMem 64 0x1000 (some "open") := .text (by decide) (sample_lies List.mem_cons_self)
  exact ⟨literals, given, perror_passes literals given⟩

end Sample

end UnixProgramming.Libmini
