import Mathlib.Data.Set.Pairwise.Basic
import Mathlib.Order.CompletePartialOrder
import Mathlib.Order.Interval.Set.Disjoint

/-!
# Intervals as keys

One interval precedes another if both its ends are smaller. On intervals that overlap this is
no order to sort by: two that contain a third need not be comparable with it, but may be with
each other. On disjoint intervals it is the order of their elements.
-/

namespace UnixProgramming.Intervals

variable {α : Type*} [LinearOrder α]

def elements (r : α × α) : Set α := Set.Ico r.1 r.2

def Precedes (r r' : α × α) : Prop := r.1 < r'.1 ∧ r.2 < r'.2

/-- All elements of one interval are less than all elements of the other. -/
def Below (r r' : α × α) : Prop := ∀ a ∈ elements r, ∀ b ∈ elements r', a < b

variable {r r' r'' : α × α}

theorem Precedes.trans (h : Precedes r r') (h' : Precedes r' r'') : Precedes r r'' :=
  ⟨h.1.trans h'.1, h.2.trans h'.2⟩

theorem Precedes.irrefl (r : α × α) : ¬ Precedes r r := fun h => lt_irrefl r.1 h.1

theorem Precedes.asymm (h : Precedes r r') : ¬ Precedes r' r := fun h' => Precedes.irrefl r (h.trans h')

theorem first_mem (nonempty : r.1 < r.2) : r.1 ∈ elements r := ⟨le_rfl, nonempty⟩

theorem below_of_le (apart : r.2 ≤ r'.1) : Below r r' :=
  fun _ inside _ inside' => inside.2.trans_le (apart.trans inside'.1)

theorem Below.asymm (nonempty : r.1 < r.2) (nonempty' : r'.1 < r'.2) (h : Below r r') : ¬ Below r' r :=
  fun h' => lt_asymm (h _ (first_mem nonempty) _ (first_mem nonempty'))
    (h' _ (first_mem nonempty') _ (first_mem nonempty))

/-- Of two disjoint intervals one ends before the other begins. -/
theorem apart_of_disjoint (nonempty : r.1 < r.2) (nonempty' : r'.1 < r'.2)
    (disjoint : Disjoint (elements r) (elements r')) : r.2 ≤ r'.1 ∨ r'.2 ≤ r.1 := by
  rcases le_total r.1 r'.1 with first | first
  · refine .inl (le_of_not_gt fun overlap => ?_)
    exact disjoint.notMem_of_mem_left ⟨first, overlap⟩ (first_mem nonempty')
  · refine .inr (le_of_not_gt fun overlap => ?_)
    exact disjoint.notMem_of_mem_left (first_mem nonempty) ⟨first, overlap⟩

theorem precedes_of_le (nonempty : r.1 < r.2) (nonempty' : r'.1 < r'.2) (apart : r.2 ≤ r'.1) :
    Precedes r r' :=
  ⟨nonempty.trans_le apart, apart.trans_lt nonempty'⟩

variable {ι : Type*} {f : ι → α × α} {S : Set ι} {i j : ι}

/-- Nonempty intervals no two of which meet. -/
structure Scattered (f : ι → α × α) (S : Set ι) : Prop where
  nonempty : ∀ i ∈ S, (f i).1 < (f i).2
  disjoint : S.PairwiseDisjoint fun i => elements (f i)

namespace Scattered

theorem apart (h : Scattered f S) (inside : i ∈ S) (inside' : j ∈ S) (other : i ≠ j) :
    (f i).2 ≤ (f j).1 ∨ (f j).2 ≤ (f i).1 :=
  apart_of_disjoint (h.nonempty i inside) (h.nonempty j inside') (h.disjoint inside inside' other)

theorem precedes_or (h : Scattered f S) (inside : i ∈ S) (inside' : j ∈ S) (other : i ≠ j) :
    Precedes (f i) (f j) ∨ Precedes (f j) (f i) :=
  (h.apart inside inside' other).imp (precedes_of_le (h.nonempty i inside) (h.nonempty j inside'))
    (precedes_of_le (h.nonempty j inside') (h.nonempty i inside))

theorem precedes_iff_below (h : Scattered f S) (inside : i ∈ S) (inside' : j ∈ S) :
    Precedes (f i) (f j) ↔ Below (f i) (f j) := by
  have nonempty := h.nonempty i inside
  have nonempty' := h.nonempty j inside'
  by_cases same : i = j
  · subst same
    exact iff_of_false (Precedes.irrefl _) fun below => below.asymm nonempty nonempty below
  · rcases h.apart inside inside' same with before | after
    · exact iff_of_true (precedes_of_le nonempty nonempty' before) (below_of_le before)
    · exact iff_of_false (precedes_of_le nonempty' nonempty after).asymm
        ((below_of_le after).asymm nonempty' nonempty)

theorem isStrictTotalOrder (h : Scattered f S) :
    IsStrictTotalOrder S fun i j => Precedes (f i) (f j) where
  irrefl i := Precedes.irrefl (f i)
  trans _ _ _ := Precedes.trans
  trichotomous i j before after := by
    by_contra other
    rcases h.precedes_or i.2 j.2 fun same => other (Subtype.ext same) with less | greater
    · exact before less
    · exact after greater

end Scattered

end UnixProgramming.Intervals
