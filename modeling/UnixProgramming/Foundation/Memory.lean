import Mathlib.Data.BitVec
import Mathlib.Data.Set.Piecewise
import Mathlib.Order.CompletePartialOrder
import Mathlib.Tactic.IntervalCases

/-!
# Byte memories seen through 64-bit words

Addresses are 64-bit and wrap around. A memory is a function from addresses to
cells: bytes for memory that is always there, `Option` bytes for memory of which
only some pages are mapped. Words are little endian. The last section is about
replacing the first byte of a word: written back over the memory it was read
from, this changes one byte; written back later, it also brings back the seven
bytes behind it as they were.
-/

namespace UnixProgramming.Memory

abbrev Addr := BitVec 64

instance : LawfulBEq Addr := inferInstance

section Words

/-- Byte `i` of a little-endian word. -/
def byte (w : BitVec 64) (i : Nat) : BitVec 8 := w.extractLsb' (8 * i) 8

def ofBytes (b : Nat → BitVec 8) : BitVec 64 :=
  b 7 ++ b 6 ++ b 5 ++ b 4 ++ b 3 ++ b 2 ++ b 1 ++ b 0

theorem getLsbD_ofBytes (b : Nat → BitVec 8) {i j : Nat} (hi : i < 8) (hj : j < 8) :
    (ofBytes b).getLsbD (8 * i + j) = (b i).getLsbD j := by
  rw [ofBytes]
  interval_cases i <;> simp (disch := omega) only [BitVec.getLsbD_append, if_pos, if_neg] <;>
    congr 1 <;> omega

theorem byte_ofBytes (b : Nat → BitVec 8) {i : Nat} (hi : i < 8) : byte (ofBytes b) i = b i := by
  apply BitVec.eq_of_getLsbD_eq
  intro j hj
  rw [byte, BitVec.getLsbD_extractLsb', getLsbD_ofBytes b hi hj]
  simp [hj]

theorem ofBytes_byte (w : BitVec 64) : ofBytes (byte w) = w := by
  apply BitVec.eq_of_getLsbD_eq
  intro k hk
  have low : k % 8 < 8 := Nat.mod_lt k (by decide)
  have place : 8 * (k / 8) + k % 8 = k := Nat.div_add_mod k 8
  have bit := getLsbD_ofBytes (byte w) (show k / 8 < 8 by omega) low
  rw [byte, BitVec.getLsbD_extractLsb', place] at bit
  simpa [low] using bit

theorem ofBytes_congr {b b' : Nat → BitVec 8} (h : ∀ i < 8, b i = b' i) :
    ofBytes b = ofBytes b' := by
  simp only [ofBytes, h 0 (by decide), h 1 (by decide), h 2 (by decide), h 3 (by decide),
    h 4 (by decide), h 5 (by decide), h 6 (by decide), h 7 (by decide)]

/-- The word with its first byte in memory replaced. -/
def setLow (w : BitVec 64) (p : BitVec 8) : BitVec 64 :=
  (w &&& 0xffffffffffffff00#64) ||| p.setWidth 64

theorem lowMask_getElem {k : Nat} (h : k < 64) :
    (0xffffffffffffff00#64)[k] = decide (8 ≤ k) := by
  have all : ∀ k : Fin 64, (0xffffffffffffff00#64).getLsbD k = decide (8 ≤ k.val) := by decide
  rw [← BitVec.getLsbD_eq_getElem h]
  exact all ⟨k, h⟩

theorem byte_setLow (w : BitVec 64) (p : BitVec 8) {i : Nat} (hi : i < 8) :
    byte (setLow w p) i = if i = 0 then p else byte w i := by
  apply BitVec.eq_of_getLsbD_eq
  intro j hj
  have bound : 8 * i + j < 64 := by omega
  by_cases h : i = 0
  · subst h
    simp [byte, setLow, lowMask_getElem, hj, show j < 64 by omega, show ¬ 8 ≤ j by omega]
  · simp [byte, setLow, lowMask_getElem, bound, hj, h, show 8 ≤ 8 * i + j by omega]

end Words

section Windows

/-- The `n` addresses from `a` on. -/
def window (a : Addr) (n : Nat) : Set Addr := {x | (x - a).toNat < n}

theorem mem_window {a x : Addr} {n : Nat} : x ∈ window a n ↔ (x - a).toNat < n := Iff.rfl

instance (a : Addr) (n : Nat) (x : Addr) : Decidable (x ∈ window a n) :=
  decidable_of_iff _ mem_window.symm

theorem toNat_offset (a : Addr) {i : Nat} (hi : i < 2 ^ 64) :
    (a + BitVec.ofNat 64 i - a).toNat = i := by
  rw [BitVec.add_comm, BitVec.add_sub_cancel, BitVec.toNat_ofNat, Nat.mod_eq_of_lt hi]

theorem add_offset (a x : Addr) : a + BitVec.ofNat 64 (x - a).toNat = x := by
  rw [BitVec.ofNat_toNat, BitVec.setWidth_eq, BitVec.add_comm, BitVec.sub_add_cancel]

theorem add_mem_window (a : Addr) {i n : Nat} (hi : i < n) (hn : n ≤ 2 ^ 64) :
    a + BitVec.ofNat 64 i ∈ window a n := by
  rw [mem_window, toNat_offset a (by omega)]
  exact hi

theorem mem_window_iff {a x : Addr} {n : Nat} (hn : n ≤ 2 ^ 64) :
    x ∈ window a n ↔ ∃ i < n, x = a + BitVec.ofNat 64 i := by
  constructor
  · exact fun h => ⟨(x - a).toNat, h, (add_offset a x).symm⟩
  · rintro ⟨i, hi, rfl⟩
    exact add_mem_window a hi hn

theorem self_mem_window (a : Addr) {n : Nat} (hn : 0 < n) : a ∈ window a n := by
  simpa [mem_window] using hn

variable {β : Type*}

/-- Memory `m` with the `n` cells from `a` on given by `f`. -/
def splice (m : Addr → β) (a : Addr) (n : Nat) (f : Nat → β) : Addr → β :=
  (window a n).piecewise (fun x => f (x - a).toNat) m

theorem splice_add (m : Addr → β) (a : Addr) {i n : Nat} (f : Nat → β) (hi : i < n)
    (hn : n ≤ 2 ^ 64) : splice m a n f (a + BitVec.ofNat 64 i) = f i := by
  rw [splice, Set.piecewise_eq_of_mem _ _ _ (add_mem_window a hi hn), toNat_offset a (by omega)]

theorem splice_of_notMem {m : Addr → β} {a x : Addr} {n : Nat} {f : Nat → β}
    (h : x ∉ window a n) : splice m a n f x = m x :=
  Set.piecewise_eq_of_notMem _ _ _ h

end Windows

section Total

def load (m : Addr → BitVec 8) (a : Addr) : BitVec 64 :=
  ofBytes fun i => m (a + BitVec.ofNat 64 i)

def store (m : Addr → BitVec 8) (a : Addr) (w : BitVec 64) : Addr → BitVec 8 :=
  splice m a 8 (byte w)

theorem load_congr {m m' : Addr → BitVec 8} {a : Addr}
    (h : ∀ i < 8, m (a + BitVec.ofNat 64 i) = m' (a + BitVec.ofNat 64 i)) : load m a = load m' a :=
  ofBytes_congr h

@[simp] theorem load_store (m : Addr → BitVec 8) (a : Addr) (w : BitVec 64) :
    load (store m a w) a = w := by
  have bytes : ∀ i < 8, store m a w (a + BitVec.ofNat 64 i) = byte w i :=
    fun i hi => splice_add m a (byte w) hi (by decide)
  rw [load, ofBytes_congr bytes, ofBytes_byte]

theorem store_of_notMem {m : Addr → BitVec 8} {a x : Addr} {w : BitVec 64}
    (h : x ∉ window a 8) : store m a w x = m x :=
  splice_of_notMem h

/-- The words at the two addresses do not meet. -/
def Separate (a b : Addr) : Prop := ∀ x ∈ window a 8, x ∉ window b 8

theorem Separate.symm {a b : Addr} (h : Separate a b) : Separate b a :=
  fun x near far => h x far near

theorem load_store_of_separate {m : Addr → BitVec 8} {a b : Addr} {w : BitVec 64}
    (h : Separate a b) : load (store m b w) a = load m a :=
  load_congr fun _ hi => store_of_notMem (h _ (add_mem_window a hi (by decide)))

theorem window_subset (a : Addr) {k n l : Nat} (h : k + n ≤ l) (bound : l ≤ 2 ^ 64) :
    window (a + BitVec.ofNat 64 k) n ⊆ window a l := by
  intro x near
  obtain ⟨i, hi, rfl⟩ := (mem_window_iff (by omega)).mp near
  rw [BitVec.add_assoc, ← BitVec.ofNat_add]
  exact add_mem_window a (by omega) bound

/-- Words at offsets at least eight apart. -/
theorem separate_offsets (a : Addr) {p q : Nat} (apart : p + 8 ≤ q ∨ q + 8 ≤ p)
    (hp : p + 8 ≤ 2 ^ 64) (hq : q + 8 ≤ 2 ^ 64) :
    Separate (a + BitVec.ofNat 64 p) (a + BitVec.ofNat 64 q) := by
  intro x near far
  obtain ⟨i, hi, rfl⟩ := (mem_window_iff (by decide)).mp near
  obtain ⟨j, hj, same⟩ := (mem_window_iff (by decide)).mp far
  rw [BitVec.add_assoc, BitVec.add_assoc, ← BitVec.ofNat_add, ← BitVec.ofNat_add] at same
  have offsets := congrArg (fun y => (y - a).toNat) same
  simp only [toNat_offset a (show p + i < 2 ^ 64 by omega),
    toNat_offset a (show q + j < 2 ^ 64 by omega)] at offsets
  omega

/-- The address of word `i` of a structure of words. -/
def slot (a : Addr) (i : Nat) : Addr := a + BitVec.ofNat 64 (8 * i)

theorem separate_slots (a : Addr) {i j : Nat} (other : i ≠ j) (hi : i < 2 ^ 32) (hj : j < 2 ^ 32) :
    Separate (slot a i) (slot a j) :=
  separate_offsets a (by omega) (by omega) (by omega)

theorem slot_subset (a : Addr) {i n : Nat} (hi : i < n) (hn : n < 2 ^ 32) :
    window (slot a i) 8 ⊆ window a (8 * n) :=
  window_subset a (by omega) (by omega)

/-- Several words written one after the other. -/
def stores (m : Addr → BitVec 8) (writes : List (Addr × BitVec 64)) : Addr → BitVec 8 :=
  writes.foldl (fun m p => store m p.1 p.2) m

theorem stores_cons (m : Addr → BitVec 8) (p : Addr × BitVec 64) (ps : List (Addr × BitVec 64)) :
    stores m (p :: ps) = stores (store m p.1 p.2) ps := rfl

theorem stores_of_notMem {m : Addr → BitVec 8} {x : Addr} {writes : List (Addr × BitVec 64)}
    (h : ∀ p ∈ writes, x ∉ window p.1 8) : stores m writes x = m x := by
  induction writes generalizing m with
  | nil => rfl
  | cons p ps ih =>
    rw [stores_cons, ih fun q hq => h q (List.mem_cons_of_mem p hq),
      store_of_notMem (h p List.mem_cons_self)]

theorem load_stores_of_separate {m : Addr → BitVec 8} {a : Addr} {writes : List (Addr × BitVec 64)}
    (h : ∀ p ∈ writes, Separate a p.1) : load (stores m writes) a = load m a :=
  load_congr fun _ hi => stores_of_notMem fun p hp => h p hp _ (add_mem_window a hi (by decide))

theorem stores_eqOn {m : Addr → BitVec 8} {S : Set Addr} {writes : List (Addr × BitVec 64)}
    (h : ∀ p ∈ writes, window p.1 8 ⊆ S) : Set.EqOn (stores m writes) m Sᶜ :=
  fun _ out => stores_of_notMem fun p hp near => out (h p hp near)

theorem load_eqOn {m m' : Addr → BitVec 8} {a : Addr} {S : Set Addr} (same : Set.EqOn m' m Sᶜ)
    (out : Disjoint (window a 8) S) : load m' a = load m a :=
  load_congr fun _ hi => same (out.notMem_of_mem_left (add_mem_window a hi (by decide)))

/-- Of separate words each can be read back. -/
theorem load_stores {m : Addr → BitVec 8} {a : Addr} {w : BitVec 64}
    {writes : List (Addr × BitVec 64)} (apart : writes.Pairwise fun p q => Separate p.1 q.1)
    (h : (a, w) ∈ writes) : load (stores m writes) a = w := by
  induction writes generalizing m with
  | nil => cases h
  | cons p ps ih =>
    obtain ⟨first, rest⟩ := List.pairwise_cons.mp apart
    rw [stores_cons]
    obtain rfl | later := List.mem_cons.mp h
    · rw [load_stores_of_separate first, load_store]
    · exact ih rest later

end Total

section Partial

variable {m m' : Addr → Option (BitVec 8)} {a : Addr} {w : BitVec 64}

/-- All eight bytes of the word at `a` are mapped. -/
def Readable (m : Addr → Option (BitVec 8)) (a : Addr) : Prop :=
  ∀ i < 8, (m (a + BitVec.ofNat 64 i)).isSome

instance (m : Addr → Option (BitVec 8)) (a : Addr) : Decidable (Readable m a) :=
  inferInstanceAs (Decidable (∀ i < 8, (m (a + BitVec.ofNat 64 i)).isSome))

def peek (m : Addr → Option (BitVec 8)) (a : Addr) : Option (BitVec 64) :=
  if Readable m a then some (ofBytes fun i => (m (a + BitVec.ofNat 64 i)).getD 0) else none

def poke (m : Addr → Option (BitVec 8)) (a : Addr) (w : BitVec 64) :
    Option (Addr → Option (BitVec 8)) :=
  if Readable m a then some (splice m a 8 fun i => some (byte w i)) else none

theorem readable_of_peek (h : peek m a = some w) : Readable m a := by
  by_contra no
  simp [peek, no] at h

theorem peek_isSome_iff : (peek m a).isSome ↔ Readable m a := by
  unfold peek
  split <;> simp_all

theorem peek_eq_none (h : ¬ Readable m a) : peek m a = none := by simp [peek, h]

theorem poke_eq_none (h : ¬ Readable m a) : poke m a w = none := by simp [poke, h]

theorem Readable.self (h : Readable m a) : (m a).isSome := by
  simpa using h 0 (by decide)

theorem byte_of_peek (h : peek m a = some w) {i : Nat} (hi : i < 8) :
    m (a + BitVec.ofNat 64 i) = some (byte w i) := by
  have readable := readable_of_peek h
  have word : ofBytes (fun i => (m (a + BitVec.ofNat 64 i)).getD 0) = w := by
    simpa [peek, readable] using h
  rw [← word, byte_ofBytes _ hi]
  obtain ⟨b, hb⟩ := Option.isSome_iff_exists.mp (readable i hi)
  simp [hb]

/-- The first byte of the word at `a` is the byte at `a`. -/
theorem low_of_peek (h : peek m a = some w) : m a = some (byte w 0) := by
  simpa using byte_of_peek h (i := 0) (by decide)

/-- Writing a word back with its first byte replaced over a memory that may have
changed since the word was read: the seven bytes behind it return to what they
were at the read. -/
theorem poke_setLow (read : peek m a = some w) (now : Readable m' a) (p : BitVec 8) :
    poke m' a (setLow w p) =
      some (Function.update ((window a 8).piecewise m m') a (some p)) := by
  simp only [poke, if_pos now, Option.some.injEq]
  funext x
  by_cases hx : x ∈ window a 8
  · obtain ⟨i, hi, rfl⟩ := (mem_window_iff (by decide)).mp hx
    rw [splice_add _ _ _ hi (by decide), byte_setLow w p hi]
    by_cases h0 : i = 0
    · subst h0
      simp
    · have ne : a + BitVec.ofNat 64 i ≠ a := by
        intro eq
        have off := toNat_offset a (i := i) (by omega)
        rw [eq, BitVec.sub_self] at off
        exact h0 (by simpa using off.symm)
      rw [Function.update_of_ne ne, Set.piecewise_eq_of_mem _ _ _ hx, byte_of_peek read hi, if_neg h0]
  · have ne : x ≠ a := by
      rintro rfl
      exact hx (self_mem_window x (by decide))
    rw [splice_of_notMem hx, Function.update_of_ne ne, Set.piecewise_eq_of_notMem _ _ _ hx]

/-- Read, replace the first byte, write back at once: one byte changes. -/
theorem poke_setLow_self (read : peek m a = some w) (p : BitVec 8) :
    poke m a (setLow w p) = some (Function.update m a (some p)) := by
  rw [poke_setLow read (readable_of_peek read), Set.piecewise_same]

end Partial

section Contents

variable {β : Type} {m : Addr → Option β} {a : Addr} {i : Nat} {b : β} {xs ys : List β}

/-- A list lies in memory, with its first element at `a + i`. -/
def Stored (m : Addr → Option β) (a : Addr) (i : Nat) (xs : List β) : Prop :=
  ∀ j b, xs[j]? = some b → m (a + BitVec.ofNat 64 (i + j)) = some b

theorem stored_cons :
    Stored m a i (b :: xs) ↔ m (a + BitVec.ofNat 64 i) = some b ∧ Stored m a (i + 1) xs := by
  constructor
  · intro h
    refine ⟨h 0 b rfl, fun j c at_j => ?_⟩
    rw [Nat.add_assoc, Nat.add_comm 1 j]
    exact h (j + 1) c at_j
  · rintro ⟨first, rest⟩ j c at_j
    cases j with
    | zero => exact first.trans at_j
    | succ j =>
      rw [Nat.add_comm j 1, ← Nat.add_assoc]
      exact rest j c at_j

theorem stored_append :
    Stored m a i (xs ++ ys) ↔ Stored m a i xs ∧ Stored m a (i + xs.length) ys := by
  induction xs generalizing i with
  | nil => simp [Stored]
  | cons x xs ih =>
    rw [List.cons_append, stored_cons, stored_cons, ih, and_assoc, List.length_cons,
      Nat.add_assoc, Nat.add_comm 1]

theorem Stored.take (h : Stored m a i xs) (n : Nat) : Stored m a i (xs.take n) :=
  (stored_append.mp ((List.take_append_drop n xs).symm ▸ h)).1

theorem stored_add (k : Nat) : Stored m (a + BitVec.ofNat 64 k) i xs ↔ Stored m a (k + i) xs := by
  refine forall₃_congr fun j b _ => ?_
  rw [BitVec.add_assoc, ← BitVec.ofNat_add, Nat.add_assoc]

end Contents

end UnixProgramming.Memory
