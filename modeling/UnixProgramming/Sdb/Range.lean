import UnixProgramming.Foundation.Intervals
import UnixProgramming.Sdb.Maps
import UnixProgramming.Sdb.Split

/-!
# Ranges as keys of a map

`operator<` asks for both ends of a range to be smaller. The ranges of a memory map do not meet,
and on these it is the order of the addresses.
-/

namespace UnixProgramming.Sdb

open Text OrderedMap Intervals

section Order

/-- A range as numbers, which `operator<` compares. -/
def numbers (r : BitVec 64 × BitVec 64) : Nat × Nat := (r.1.toNat, r.2.toNat)

def MapEntry.range (m : MapEntry) : BitVec 64 × BitVec 64 := (m.first, m.last)

theorem lessRange_iff (r r' : BitVec 64 × BitVec 64) :
    lessRange r r' = true ↔ Precedes (numbers r) (numbers r') := by
  rw [lessRange, decide_eq_true_eq, BitVec.lt_def, BitVec.lt_def]
  rfl

end Order

section Table

/-- What `load_maps` returns for its map. -/
def mapsSize (loaded : List ((BitVec 64 × BitVec 64) × MapEntry)) : Int :=
  toInt (BitVec.ofNat 64 loaded.length)

/-- The map holds each row once, in the order of the addresses. -/
structure HoldsEach (rows : List MapEntry) (loaded : List ((BitVec 64 × BitVec 64) × MapEntry)) :
    Prop where
  once : loaded.Perm (rows.map fun m => (m.range, m))
  ascending : loaded.Pairwise fun e e' => Below (numbers e.1) (numbers e'.1)
  size : loaded.length = rows.length
  returned : rows.length < 2 ^ 31 → mapsSize loaded = rows.length

variable {S : Set (BitVec 64 × BitVec 64)} {rows : List MapEntry}

/-- Whatever the order of the rows is. -/
theorem holdsEach_of_scattered (scattered : Scattered numbers S) (inside : ∀ m ∈ rows, m.range ∈ S)
    (distinct : (rows.map MapEntry.range).Nodup) :
    HoldsEach rows ((rows.map fun m => (m.range, m)).foldl
      (fun loaded e => assign lessRange e.1 e.2 loaded) []) := by
  let keyed : List ((BitVec 64 × BitVec 64) × MapEntry) := rows.map fun m => (m.range, m)
  have within : ∀ e ∈ keyed, e.1 ∈ S := by
    intro e listed
    rcases List.mem_map.mp listed with ⟨m, row, rfl⟩
    exact inside m row
  have apart : keyed.Pairwise fun e e' => lessRange e.1 e'.1 = true ∨ lessRange e'.1 e.1 = true := by
    refine List.pairwise_map.mpr ((List.pairwise_map.mp distinct).imp_of_mem ?_)
    intro m m' row row' other
    rw [lessRange_iff, lessRange_iff]
    exact scattered.precedes_or (inside m row) (inside m' row') other
  rcases assigned_empty lessRange_trans apart with ⟨perm, ascending⟩
  have size : (keyed.foldl (fun loaded e => assign lessRange e.1 e.2 loaded) []).length = rows.length :=
    perm.length_eq.trans (List.length_map _)
  refine ⟨perm, ascending.imp_of_mem fun {e e'} listed listed' less => ?_, size, fun fits => ?_⟩
  · rw [lessRange_iff] at less
    rw [perm.mem_iff] at listed listed'
    exact (scattered.precedes_iff_below (within e listed) (within e' listed')).mp less
  · rw [mapsSize, size]
    exact toInt_ofNat fits

/-- On nonempty ranges that do not meet, `operator<` is a strict total order, that of their
addresses, and `load_maps` keeps the rows with such ranges, whatever the order of its lines is. -/
theorem loadMaps_keys (scattered : Scattered numbers S) (inside : ∀ m ∈ rows, m.range ∈ S)
    (distinct : (rows.map MapEntry.range).Nodup) :
    IsStrictTotalOrder S (fun r r' => lessRange r r' = true) ∧
    (∀ r ∈ S, ∀ r' ∈ S, lessRange r r' = true ↔ Below (numbers r) (numbers r')) ∧
    ∃ loaded, HoldsEach rows loaded ∧
      loaded = rows.foldl (fun loaded m => assign lessRange m.range m loaded) [] ∧
      ∀ text, (fgets 256 text).map (fun buf => readLine (upToNul buf)) = rows.map some →
        readLines [] (fgets 256 text) = some loaded ∧
          loadMaps text = some (loaded.map Prod.snd) := by
  refine ⟨?_, fun r member r' member' => ?_, _, holdsEach_of_scattered scattered inside distinct,
    List.foldl_map, fun text read => ?_⟩
  · simpa only [lessRange_iff] using scattered.isStrictTotalOrder
  · exact (lessRange_iff r r').trans (scattered.precedes_iff_below member member')
  · have filled : readLines [] (fgets 256 text) = some _ := readLines_iff.mpr ⟨rows, read, rfl⟩
    exact ⟨filled, Option.map_eq_some_iff.mpr ⟨_, filled, rfl⟩⟩

/-- Two pages, the upper one first. -/
theorem loadMaps_keys_pages :
    IsStrictTotalOrder ({(0x2000, 0x3000), (0x1000, 0x2000)} : Set (BitVec 64 × BitVec 64))
      (fun r r' => lessRange r r' = true) ∧
    ∃ loaded, HoldsEach [⟨0x2000, 0x3000, 4, "b"⟩, ⟨0x1000, 0x2000, 5, "a"⟩] loaded := by
  have scattered : Scattered numbers ({(0x2000, 0x3000), (0x1000, 0x2000)} : Set (BitVec 64 × BitVec 64)) := by
    constructor
    · simp [numbers]
    · rintro r (rfl | rfl) r' (rfl | rfl) other
      · exact absurd rfl other
      · exact Set.Ico_disjoint_Ico_same.symm
      · exact Set.Ico_disjoint_Ico_same
      · exact absurd rfl other
  have inside : ∀ m ∈ [(⟨0x2000, 0x3000, 4, "b"⟩ : MapEntry), ⟨0x1000, 0x2000, 5, "a"⟩],
      m.range ∈ ({(0x2000, 0x3000), (0x1000, 0x2000)} : Set (BitVec 64 × BitVec 64)) := by
    simp [MapEntry.range]
  rcases loadMaps_keys scattered inside (by decide) with ⟨order, -, loaded, holds, -⟩
  exact ⟨order, loaded, holds⟩

end Table

end UnixProgramming.Sdb
