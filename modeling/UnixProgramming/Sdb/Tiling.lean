import Mathlib.Data.List.Chain
import UnixProgramming.Sdb.Outcome
import UnixProgramming.Sdb.Sample
import UnixProgramming.Sdb.Sweep

/-!
# The instructions of `get_orig_code`

The loop goes on by the size of the last instruction in the list. As long as the decoder always
finds an instruction, the instructions that it appends lie in memory without a gap.
-/

namespace UnixProgramming.Sdb

open Memory Stateful

variable {κ : Type} {mem : Addr → Option Byte}

section Window

/-- Where all words can be read, they are what is in memory. -/
theorem stored_readWords {ptr : Addr} {k : Nat}
    (readable : ∀ i < 8 * k, (mem (ptr + BitVec.ofNat 64 i)).isSome) :
    Stored mem ptr 0 (readWords mem ptr k) := by
  induction k generalizing ptr with
  | zero => exact fun j b at_j => by cases at_j
  | succ k ih =>
    have first : (peek mem ptr).isSome :=
      peek_isSome_iff.mpr fun i hi => readable i (by omega)
    rcases Option.isSome_iff_exists.mp first with ⟨word, read⟩
    rw [readWords, read]
    refine stored_append.mpr ⟨fun j b at_j => ?_, ?_⟩
    · rcases List.getElem?_eq_some_iff.mp at_j with ⟨short, rfl⟩
      rw [List.length_map, List.length_range] at short
      rw [Nat.zero_add, byte_of_peek read short, List.getElem_map, List.getElem_range]
    · rw [List.length_map, List.length_range, Nat.zero_add]
      refine (stored_add 8).mp (ih fun i hi => ?_)
      rw [BitVec.add_assoc, ← BitVec.ofNat_add]
      exact readable (8 + i) (by omega)

theorem stored_codeAt {addr : Addr} (fits : addr.toNat + 64 < 2 ^ 64)
    (readable : ∀ i < 64, (mem (addr + BitVec.ofNat 64 i)).isSome) :
    Stored mem addr 0 (codeAt mem addr) := by
  have runs : addr < addr + 64 := by
    have buf : (64 : Addr).toNat = 64 := rfl
    rw [BitVec.lt_def, BitVec.toNat_add, buf]
    omega
  rw [codeAt, if_pos runs]
  exact (stored_readWords readable).take 63

end Window

section Tiles

/-- The instructions lie one behind the other, from `first` until `stop` is reached, and have
the bytes that are in memory. -/
structure Tiling (mem : Addr → Option Byte) (first stop : Nat) (new : List Instruction1) : Prop where
  none : new = [] ↔ stop ≤ first
  starts : ∀ i ∈ new.head?, i.addr.toNat = first
  follows : new.IsChain fun i j => j.addr.toNat = i.addr.toNat + i.size
  ends : ∀ i ∈ new.getLast?, i.addr.toNat < stop ∧ stop ≤ i.addr.toNat + i.size
  code : ∀ i ∈ new, i.bytes.length = i.size ∧ Stored mem i.addr 0 i.bytes

/-- With `CS_OPT_SKIPDATA` every window starts with an instruction of 1 to 15 bytes. -/
structure Skipdata (host : Host κ) : Prop where
  opened : host.csOpen = true
  decodes : ∀ window addr, window.length = 63 → ∃ insn, host.csDisasm window addr = some insn ∧
    1 ≤ insn.size ∧ insn.size ≤ 15 ∧ insn.bytes = window.take insn.size

variable {first stop : Nat} {i : Instruction1} {new : List Instruction1}

theorem Tiling.empty (ended : stop ≤ first) : Tiling mem first stop [] where
  none := ⟨fun _ => ended, fun _ => rfl⟩
  starts _ none := by cases none
  follows := .nil
  ends _ none := by cases none
  code _ none := by cases none

theorem Tiling.cons (rest : Tiling mem (first + i.size) stop new) (more : first < stop)
    (here : i.addr.toNat = first) (length : i.bytes.length = i.size)
    (stored : Stored mem i.addr 0 i.bytes) : Tiling mem first stop (i :: new) where
  none := ⟨fun empty => absurd empty (List.cons_ne_nil i new), fun ended => absurd more (by omega)⟩
  starts j head := by
    cases head
    exact here
  follows := List.isChain_cons.mpr ⟨fun j head => by rw [rest.starts j head, here], rest.follows⟩
  ends j last := by
    cases new with
    | nil =>
      have only : i = j := Option.some.inj last
      rw [← only, here]
      exact ⟨more, rest.none.mp rfl⟩
    | cons k new =>
      rw [List.getLast?_cons_cons] at last
      exact rest.ends j last
  code := List.forall_mem_cons.mpr ⟨⟨length, stored⟩, rest.code⟩

variable {host : Host κ}

/-- The instruction at an address whose window is in memory. -/
theorem Skipdata.insn (skipdata : Skipdata host) {addr : Addr} (fits : addr.toNat + 64 < 2 ^ 64)
    (readable : ∀ i < 64, (mem (addr + BitVec.ofNat 64 i)).isSome) :
    ∃ insn, host.csDisasm (codeAt mem addr) addr = some insn ∧ 1 ≤ insn.size ∧ insn.size ≤ 15 ∧
      insn.bytes.length = insn.size ∧ Stored mem addr 0 insn.bytes := by
  have window := length_codeAt mem addr
  rcases skipdata.decodes _ addr window with ⟨insn, found, some_byte, short, bytes⟩
  refine ⟨insn, found, some_byte, short, ?_, ?_⟩
  · rw [bytes, List.length_take, window]
    omega
  · rw [bytes]
    exact (stored_codeAt fits readable).take insn.size

variable (info : ProgInfo) (bp : Breakpoint) (pid : Int) (prog : Program κ) (t : Tracee κ)
  (forks : Nat)

/-- All addresses from `first` to behind `last` exist and can be read. -/
def ReadableRange (mem : Addr → Option Byte) (first last : Nat) : Prop :=
  ∀ a, first ≤ a → a < last → ∃ x : Addr, x.toNat = a ∧ (mem x).isSome

theorem ReadableRange.fits {last : Nat} (h : ReadableRange mem first last) (some_byte : first < last) :
    last ≤ 2 ^ 64 := by
  rcases h (last - 1) (by omega) (by omega) with ⟨x, at_x, -⟩
  have bound := x.isLt
  omega

theorem ReadableRange.at {last : Nat} (h : ReadableRange mem first last) {addr : Addr} {k : Nat}
    (low : first ≤ addr.toNat) (high : addr.toNat + k < last) :
    (mem (addr + BitVec.ofNat 64 k)).isSome := by
  rcases h (addr.toNat + k) (by omega) high with ⟨x, at_x, mapped⟩
  have same : addr + BitVec.ofNat 64 k = x := by
    have bound := x.isLt
    apply BitVec.eq_of_toNat_eq
    rw [BitVec.toNat_add, BitVec.toNat_ofNat, at_x]
    omega
  rwa [same]

/-- The loop from an address on, by induction on the distance to its end. -/
theorem sweep_tiles (skipdata : Skipdata host) {stop addr : Addr} (low : first ≤ addr.toNat)
    (readable : ReadableRange t.mem first (stop.toNat + 64)) :
    ∃ new, Tiling t.mem addr.toNat stop.toNat new ∧
      ∀ n ins log, stop.toNat - addr.toNat ≤ n →
        ∃ l, sweep host pid stop n addr ⟨info, bp, ins, some ⟨pid, prog, t, none⟩, forks, log⟩ =
          .ok () ⟨info, bp, ins ++ new, some ⟨pid, prog, t, none⟩, forks, l⟩ := by
  induction left : stop.toNat - addr.toNat using Nat.strong_induction_on generalizing addr with
  | _ d ih =>
    subst left
    by_cases more : addr < stop
    · have below := BitVec.lt_def.mp more
      have space := readable.fits (by omega)
      rcases skipdata.insn (by omega) (fun i hi => readable.at low (by omega)) with
        ⟨insn, found, some_byte, short, length, stored⟩
      have after : (addr + BitVec.ofNat 64 insn.size).toNat = addr.toNat + insn.size := by
        rw [BitVec.toNat_add, BitVec.toNat_ofNat]
        omega
      have further : first ≤ (addr + BitVec.ofNat 64 insn.size).toNat := by omega
      rcases ih _ (by omega) further rfl with ⟨new, tiling, goes_on⟩
      rw [after] at tiling goes_on
      refine ⟨insn.record addr :: new, tiling.cons below rfl length stored, fun n ins log fuel => ?_⟩
      cases n with
      | zero => omega
      | succ n =>
        rcases sweep_stopped host info bp pid prog t forks more ins log with ⟨l, turn⟩
        rw [found] at turn
        rcases goes_on n (ins ++ [insn.record addr]) l (by omega) with ⟨l', rest⟩
        rw [List.append_assoc] at rest
        exact ⟨l', (turn n).trans rest⟩
    · have ended : stop.toNat ≤ addr.toNat := Nat.not_lt.mp fun below => more (BitVec.lt_def.mpr below)
      refine ⟨[], .empty ended, fun n ins log _ => ⟨log, ?_⟩⟩
      rw [List.append_nil]
      exact sweep_ended host pid more n _

variable {w : World κ} {c : Child κ}

/-- `get_orig_code` ends, and whatever is in the list before, the instructions that it appends
tile the code: from the entry point on, without a gap, up to or over the end, with the bytes in
memory, and none if the size is 0. The addresses up to 64 bytes behind the end have to exist. -/
theorem getOrigCode_tiles (stopped : w.Stopped c) (skipdata : Skipdata host)
    (readable : ReadableRange c.tracee.mem w.info.entry.toNat
      (w.info.entry.toNat + w.info.size.toNat + 64)) :
    ∃ new, Tiling c.tracee.mem w.info.entry.toNat (w.info.entry.toNat + w.info.size.toNat) new ∧
      ∀ n, w.info.size.toNat ≤ n → ∃ w', getOrigCode host n w = .ok () w' ∧
        w'.origInstructions = w.origInstructions ++ new := by
  rcases stopped.shape with ⟨info, bp, ins, prog, t, forks, log, rfl, rfl⟩
  dsimp only at readable ⊢
  have space := readable.fits (by omega)
  have stop : (info.entry + info.size).toNat = info.entry.toNat + info.size.toNat := by
    rw [BitVec.toNat_add]
    omega
  rw [← stop] at readable ⊢
  rcases sweep_tiles info bp info.pid prog t forks skipdata le_rfl readable with ⟨new, tiling, ends⟩
  refine ⟨new, tiling, fun n fuel => ?_⟩
  rcases ends n ins log (by omega) with ⟨l, ok⟩
  have opened : getOrigCode host n ⟨info, bp, ins, some ⟨info.pid, prog, t, none⟩, forks, log⟩ =
      sweep host info.pid (info.entry + info.size) n info.entry
        ⟨info, bp, ins, some ⟨info.pid, prog, t, none⟩, forks, log⟩ := by
    rw [getOrigCode]
    simp only [bind_apply, get_apply, skipdata.opened, if_true]
  exact ⟨_, opened.trans ok, rfl⟩

end Tiles

section Sample

open Sample

theorem Sample.skipdata (text : List Byte) : Skipdata (host text) where
  opened := rfl
  decodes window addr full := by
    cases window with
    | nil => cases full
    | cons b rest =>
      have short : length b ≤ 15 := (length_le b).trans (by decide)
      have some_byte : 1 ≤ length b := by
        unfold Sample.length
        split_ifs <;> decide
      exact ⟨_, rfl, some_byte, short, rfl⟩

theorem getOrigCode_tiles_jump : ∃ w c new, World.Stopped w c ∧ w.info.size = 3 ∧
    Tiling c.tracee.mem 0x401ffd 0x402000 new ∧
    ∀ n, 3 ≤ n → ∃ w', getOrigCode (host [0x90, 0xeb, 0xfe]) n w = .ok () w' ∧
      w'.origInstructions = w.origInstructions ++ new := by
  have stopped : World.Stopped
      ⟨{ ProgInfo.empty with entry := 0x401ffd, size := 3 }, .empty, [],
        some ⟨ProgInfo.empty.pid, sample [0x90, 0xeb, 0xfe], image [0x90, 0xeb, 0xfe], none⟩, 0, []⟩
      ⟨ProgInfo.empty.pid, sample [0x90, 0xeb, 0xfe], image [0x90, 0xeb, 0xfe], none⟩ :=
    ⟨rfl, rfl, rfl⟩
  have readable : ReadableRange (image [0x90, 0xeb, 0xfe]).mem 0x401ffd (0x401ffd + 3 + 64) := by
    intro a low high
    have number : (BitVec.ofNat 64 a).toNat = a := by
      rw [BitVec.toNat_ofNat]
      omega
    have mapped : BitVec.ofNat 64 a ∈ window 0x401000 0x2000 := by
      have page : (0x401000 : Addr).toNat = 0x401000 := rfl
      rw [mem_window, BitVec.toNat_sub, number, page]
      omega
    refine ⟨BitVec.ofNat 64 a, number, ?_⟩
    simp only [image, mapped, if_true, Option.isSome_some]
  rcases getOrigCode_tiles stopped (Sample.skipdata _) readable with ⟨new, tiling, ends⟩
  exact ⟨_, _, new, stopped, rfl, tiling, ends⟩

end Sample

end UnixProgramming.Sdb
