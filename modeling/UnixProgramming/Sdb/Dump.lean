import UnixProgramming.Sdb.Output
import UnixProgramming.Sdb.Patching

/-!
# What `dump` shows

A word that cannot be read comes back as -1, and `dump` does not look at `errno`: it prints
eight bytes `ff`. So it shows the memory if and only if all 80 bytes are there.
-/

namespace UnixProgramming.Sdb

open Memory Stateful

variable {κ : Type}

section Rows

variable (mem : Addr → Option Byte) (row : Addr)

/-- The character for a byte in the column of text. -/
def printable (b : Byte) : Char := if 32 ≤ b.toNat ∧ b.toNat ≤ 126 then Char.ofNat b.toNat else '.'

/-- The word as it comes from `ptrace`. -/
def wordRead (addr : Addr) : BitVec 64 := (peek mem addr).getD (-1)

def wordTexts (addr : Addr) : List String :=
  (List.range 8).map fun j => hexByte (byte (wordRead mem addr) j) ++ " "

/-- Byte `k` of a row. -/
def dumped (k : Nat) : Byte := byte (wordRead mem (row + BitVec.ofNat 64 (8 * (k / 8)))) (k % 8)

/-- The label, sixteen bytes and their characters. -/
def rowTexts (cells : Nat → String) (chars : Nat → Char) : List String :=
  ("\t" ++ hex row ++ ": ") :: (List.range 16).map cells ++
    ["|" ++ String.ofList ((List.range 16).map chars) ++ "| \n"]

/-- A row as `dump` prints it. -/
def dumpedRow : List String :=
  rowTexts row (fun k => hexByte (dumped mem row k) ++ " ") fun k => printable (dumped mem row k)

/-- The texts show the sixteen bytes of a row; one that cannot be read is not shown as a
byte of any value. -/
def ShowsRow (texts : List String) : Prop :=
  ∃ cells chars, texts = rowTexts row cells chars ∧ ∀ k < 16,
    match mem (row + BitVec.ofNat 64 k) with
    | some b => cells k = hexByte b ++ " " ∧ chars k = printable b
    | none => ∀ b, cells k ≠ hexByte b ++ " "

end Rows

/-- `dump` prints the 80 bytes from the address on, in five rows. -/
def ShowsMemory (host : Host κ) (w : World κ) (addr : Addr) (mem : Addr → Option Byte) : Prop :=
  ∃ rows, Shows host (.dump addr) w ((List.range 5).flatMap rows) ∧
    ∀ i < 5, ShowsRow mem (addr + BitVec.ofNat 64 (16 * i)) (rows i)

section Texts

variable {host : Host κ} {w : World κ} {c : Child κ} {mem : Addr → Option Byte} {row addr : Addr}

theorem says_peekText (stopped : w.Stopped c) (addr : Addr) :
    Says (peekText w.info.pid addr) w (wordRead c.tracee.mem addr) [] := by
  obtain ⟨info, bp, ins, prog, t, forks, log, rfl, rfl⟩ := stopped.shape
  exact ⟨_, peekText_stopped .., rfl⟩

/-- One word: its bytes, and its characters as the result. -/
theorem says_dumpWord (stopped : w.Stopped c) (addr : Addr) :
    Says (dump.dumpWord w.info.pid addr) w
      (hexToChar (wordRead c.tracee.mem addr)) (wordTexts c.tracee.mem addr) := by
  have bytes (code : BitVec 64) (w : World κ) :
      Says (forIn [0, 1, 2, 3, 4, 5, 6, 7] PUnit.unit fun j _ => do
          stderr (hexByte (byte code j) ++ " ")
          pure (ForInStep.yield PUnit.unit) : Cmd κ PUnit) w ⟨⟩
        ([0, 1, 2, 3, 4, 5, 6, 7].flatMap fun j => [hexByte (byte code j) ++ " "]) :=
    .forIn fun j _ log => .bind (.stderr _ _) fun _ => .pure _ _
  refine .bind (says_peekText stopped addr) fun _ => ?_
  exact .bind (bytes _ _) fun _ => .pure _ _

theorem hexToChar_eq (code : BitVec 64) :
    hexToChar code = String.ofList ((List.range 8).map fun j => printable (byte code j)) := rfl

theorem dumped_low (mem : Addr → Option Byte) (row : Addr) {j : Nat} (hj : j < 8) :
    dumped mem row j = byte (wordRead mem row) j := by
  rw [dumped, Nat.div_eq_of_lt hj, Nat.mod_eq_of_lt hj, Nat.mul_zero, BitVec.add_zero]

theorem dumped_high (mem : Addr → Option Byte) (row : Addr) {j : Nat} (hj : j < 8) :
    dumped mem row (8 + j) = byte (wordRead mem (row + 8)) j := by
  rw [dumped, Nat.add_div_left j (by decide), Nat.div_eq_of_lt hj, Nat.add_mod_left,
    Nat.mod_eq_of_lt hj, Nat.zero_add, Nat.mul_one, BitVec.ofNat_eq_ofNat]

/-- A column of a row is made of those of its words. -/
theorem column_eq {α : Type} (f : Byte → α) (mem : Addr → Option Byte) (row : Addr) :
    ((List.range 8).map fun j => f (byte (wordRead mem row) j)) ++
      ((List.range 8).map fun j => f (byte (wordRead mem (row + 8)) j)) =
      (List.range 16).map fun k => f (dumped mem row k) := by
  have halves : List.range 16 = List.range 8 ++ (List.range 8).map (8 + ·) := by decide
  rw [halves, List.map_append, List.map_map]
  refine congrArg₂ (· ++ ·) (List.map_congr_left fun j member => ?_)
    (List.map_congr_left fun j member => ?_)
  · rw [dumped_low mem row (List.mem_range.mp member)]
  · rw [Function.comp_apply, dumped_high mem row (List.mem_range.mp member)]

/-- One row. -/
theorem says_dumpRow (stopped : w.Stopped c) (row : Addr) :
    Says (do
      stderr ("\t" ++ hex row ++ ": ")
      let first ← dump.dumpWord w.info.pid row
      let second ← dump.dumpWord w.info.pid (row + 8)
      stderr ("|" ++ first ++ second ++ "| \n")
      pure (ForInStep.yield PUnit.unit)) w (.yield ⟨⟩) (dumpedRow c.tracee.mem row) := by
  have texts : dumpedRow c.tracee.mem row =
      ["\t" ++ hex row ++ ": "] ++ (wordTexts c.tracee.mem row ++
        (wordTexts c.tracee.mem (row + 8) ++ (["|" ++ hexToChar (wordRead c.tracee.mem row) ++
          hexToChar (wordRead c.tracee.mem (row + 8)) ++ "| \n"] ++ []))) := by
    rw [dumpedRow, rowTexts, ← column_eq (printable ·), ← column_eq (hexByte · ++ " ")]
    simp [wordTexts, hexToChar_eq, String.append_assoc]
  rw [texts]
  refine .bind (.stderr _ _) fun log => ?_
  refine .bind (says_dumpWord (stopped.log log) row) fun log => ?_
  refine .bind (says_dumpWord (stopped.log log) (row + 8)) fun log => ?_
  exact .bind (.stderr _ _) fun log => .pure _ _

/-- What `dump` prints, whether it can be read or not. -/
theorem shows_dump (stopped : w.Stopped c) (addr : Addr) :
    Shows host (.dump addr) w
      ((List.range 5).flatMap fun i => dumpedRow c.tracee.mem (addr + BitVec.ofNat 64 (16 * i))) := by
  have rows : Says (dump addr) w () ([] ++ (([0, 1, 2, 3, 4].flatMap fun i =>
      dumpedRow c.tracee.mem (addr + BitVec.ofNat 64 (16 * i))) ++ [])) := by
    refine .bind (.get _) fun log => .bind (a := ⟨⟩) ?_ fun _ => .pure _ _
    exact .forIn fun i _ log => says_dumpRow (stopped.log log) _
  rw [List.nil_append, List.append_nil] at rows
  exact Says.shows (n := 0) rows

/-- Where all bytes are there, those of `ptrace` are the bytes of the memory. -/
theorem mem_eq_dumped (mapped : ∀ k < 16, (mem (row + BitVec.ofNat 64 k)).isSome) {k : Nat}
    (hk : k < 16) : mem (row + BitVec.ofNat 64 k) = some (dumped mem row k) := by
  have place {j : Nat} (hj : j < 8) : row + BitVec.ofNat 64 (8 * (k / 8)) + BitVec.ofNat 64 j =
      row + BitVec.ofNat 64 (8 * (k / 8) + j) := by
    rw [BitVec.add_assoc, ← BitVec.ofNat_add]
  have readable : Readable mem (row + BitVec.ofNat 64 (8 * (k / 8))) := by
    intro j hj
    rw [place hj]
    exact mapped _ (by omega)
  obtain ⟨word, read⟩ := Option.isSome_iff_exists.mp (peek_isSome_iff.mpr readable)
  have found := byte_of_peek read (Nat.mod_lt k (by decide))
  rw [place (Nat.mod_lt k (by decide)), Nat.div_add_mod] at found
  rw [found, dumped, wordRead, read, Option.getD_some]

theorem length_rowTexts (row : Addr) (cells : Nat → String) (chars : Nat → Char) :
    (rowTexts row cells chars).length = 18 := by
  simp [rowTexts]

theorem rowTexts_cells {cells cells' : Nat → String} {chars chars' : Nat → Char}
    (same : rowTexts row cells chars = rowTexts row cells' chars') {k : Nat} (hk : k < 16) :
    cells k = cells' k := by
  have tails := (List.append_inj same (by simp)).1
  exact List.map_inj_left.mp (List.cons.inj tails).2 k (List.mem_range.mpr hk)

/-- Rows of one length can be told apart in what they are put together to. -/
theorem rows_inj {α : Type} {f g : Nat → List α} {n m : Nat} (hf : ∀ i < m, (f i).length = n)
    (hg : ∀ i < m, (g i).length = n) (same : (List.range m).flatMap f = (List.range m).flatMap g) :
    ∀ i < m, f i = g i := by
  induction m with
  | zero => simp
  | succ m ih =>
    rw [List.range_succ, List.flatMap_append, List.flatMap_append, List.flatMap_singleton,
      List.flatMap_singleton] at same
    obtain ⟨before, last⟩ := List.append_inj' same (by rw [hf m m.lt_succ_self, hg m m.lt_succ_self])
    intro i bound
    obtain earlier | rfl := Nat.lt_succ_iff_lt_or_eq.mp bound
    · exact ih (fun i h => hf i (Nat.lt_succ_of_lt h)) (fun i h => hg i (Nat.lt_succ_of_lt h)) before
        i earlier
    · exact last

theorem showsRow_dumpedRow (mapped : ∀ k < 16, (mem (row + BitVec.ofNat 64 k)).isSome) :
    ShowsRow mem row (dumpedRow mem row) := by
  refine ⟨_, _, rfl, fun k hk => ?_⟩
  rw [mem_eq_dumped mapped hk]
  exact ⟨rfl, rfl⟩

/-- A row that is shown is there. -/
theorem mapped_of_showsRow (shown : ShowsRow mem row (dumpedRow mem row)) {k : Nat} (hk : k < 16) :
    (mem (row + BitVec.ofNat 64 k)).isSome := by
  obtain ⟨cells, chars, texts, show_each⟩ := shown
  have cell := show_each k hk
  split at cell
  · next found => rw [found]; rfl
  · exact absurd (rowTexts_cells texts hk).symm (cell _)

theorem address_place (addr : Addr) (i k : Nat) :
    addr + BitVec.ofNat 64 (16 * i) + BitVec.ofNat 64 k = addr + BitVec.ofNat 64 (16 * i + k) := by
  rw [BitVec.add_assoc, ← BitVec.ofNat_add]

/-- Memory that is shown is there. -/
theorem ShowsMemory.mapped (shown : ShowsMemory host w addr c.tracee.mem) (stopped : w.Stopped c)
    {k : Nat} (hk : k < 80) : (c.tracee.mem (addr + BitVec.ofNat 64 k)).isSome := by
  obtain ⟨rows, shows, each⟩ := shown
  have same := shows.unique (shows_dump stopped addr)
  have lengths : ∀ i < 5, (rows i).length = 18 := by
    intro i hi
    obtain ⟨cells, chars, texts, -⟩ := each i hi
    rw [texts, length_rowTexts]
  have row := rows_inj lengths (fun i _ => length_rowTexts _ _ _) same (k / 16) (by omega)
  have inRow := each (k / 16) (by omega)
  rw [row] at inRow
  have there := mapped_of_showsRow inRow (Nat.mod_lt k (by decide))
  rwa [address_place, Nat.div_add_mod] at there

/-- `dump` shows the memory from an address on if and only if the 80 bytes there can be read. -/
theorem dump_exact_iff (stopped : w.Stopped c) (addr : Addr) :
    ShowsMemory host w addr c.tracee.mem ↔
      ∀ k < 80, (c.tracee.mem (addr + BitVec.ofNat 64 k)).isSome := by
  refine ⟨fun shown k hk => shown.mapped stopped hk, fun mapped => ?_⟩
  refine ⟨_, shows_dump stopped addr, fun i hi => showsRow_dumpedRow fun k hk => ?_⟩
  rw [address_place]
  exact mapped _ (by omega)

end Texts

section Samples

open Sample

/-- The page of code is mapped, and nothing at address 0. -/
theorem started_nop : ∃ w c, Reachable (host [0x90]) w ∧ w.Stopped c ∧ c.tracee.mem 0 = none ∧
    ∀ k < 80, (c.tracee.mem (0x401000 + BitVec.ofNat 64 k)).isSome := by
  have summary : ((session (host [0x90]) 40 [.load "nop", .start]).bind fun w =>
      w.child.map fun c => (c.tracee.mem 0,
        decide (∀ k < 80, (c.tracee.mem (0x401000 + BitVec.ofNat 64 k)).isSome))) =
      some (none, true) := by
    decide +kernel
  obtain ⟨w, ended, rest⟩ := Option.bind_eq_some_iff.mp summary
  obtain ⟨c, alive, facts⟩ := Option.map_eq_some_iff.mp rest
  simp only [Prod.mk.injEq, decide_eq_true_eq] at facts
  obtain ⟨null, mapped⟩ := facts
  obtain ⟨reached, stopped, -, -⟩ := session_of_sample ended (by simp) alive
  exact ⟨w, c, reached, stopped, null, mapped⟩

theorem dump_exact_iff_nop : ∃ w c, Reachable (host [0x90]) w ∧ w.Stopped c ∧
    ShowsMemory (host [0x90]) w 0x401000 c.tracee.mem := by
  obtain ⟨w, c, reached, stopped, -, mapped⟩ := started_nop
  exact ⟨w, c, reached, stopped, (dump_exact_iff stopped 0x401000).mpr mapped⟩

/-- `dump 0` prints bytes `ff`, although nothing is mapped there. -/
theorem dump_shows_nothing : ∃ w c texts, Reachable (host [0x90]) w ∧ w.Stopped c ∧
    c.tracee.mem 0 = none ∧ Shows (host [0x90]) (.dump 0) w texts ∧
    texts.take 2 = ["\t0: ", "ff "] ∧ ¬ ShowsMemory (host [0x90]) w 0 c.tracee.mem := by
  obtain ⟨w, c, reached, stopped, null, -⟩ := started_nop
  refine ⟨w, c, _, reached, stopped, null, shows_dump stopped 0, ?_, ?_⟩
  · have unread : peek c.tracee.mem 0 = none := by
      refine peek_eq_none fun readable => ?_
      have there := readable.self
      rw [null] at there
      cases there
    change ["\t" ++ hex 0 ++ ": ", hexByte (dumped c.tracee.mem 0 0) ++ " "] = _
    rw [dumped_low _ _ (by decide), wordRead, unread]
    decide
  · intro shown
    have there : (c.tracee.mem 0).isSome := shown.mapped stopped (by decide : 0 < 80)
    rw [null] at there
    cases there

end Samples

end UnixProgramming.Sdb
