import Mathlib.Data.List.Basic

/-!
# Loops that change the list they run over

`eraseFrom` erases the elements that are not kept; the index moves on only past the others.
`updateFrom` replaces one element after the other. From index 0 the first is a filter
and the second a map.
-/

namespace UnixProgramming.InPlace

variable {α : Type}

section Erase

variable (keep : α → Bool)

def eraseFrom (i : Nat) (xs : List α) : List α :=
  if h : i < xs.length then
    if keep xs[i] then eraseFrom (i + 1) xs else eraseFrom i (xs.eraseIdx i)
  else
    xs
termination_by xs.length - i
decreasing_by
  · omega
  · rw [List.length_eraseIdx_of_lt h]
    omega

/-- What stands before the index stays; behind it the loop filters. -/
theorem eraseFrom_eq (i : Nat) (xs : List α) :
    eraseFrom keep i xs = xs.take i ++ (xs.drop i).filter keep := by
  induction i, xs using eraseFrom.induct keep with
  | case1 i xs h kept ih =>
    rw [eraseFrom, dif_pos h, if_pos kept, ih, List.drop_eq_getElem_cons h,
      List.filter_cons_of_pos kept, List.take_succ_eq_append_getElem h, List.append_assoc,
      List.singleton_append]
  | case2 i xs h erased ih =>
    have split : xs.eraseIdx i = xs.take i ++ xs.drop (i + 1) := List.eraseIdx_eq_take_drop_succ xs i
    have length : (xs.take i).length = i := List.length_take_of_le (Nat.le_of_lt h)
    have before : (xs.eraseIdx i).take i = xs.take i := by rw [split, List.take_left' length]
    have behind : (xs.eraseIdx i).drop i = xs.drop (i + 1) := by rw [split, List.drop_left' length]
    rw [eraseFrom, dif_pos h, if_neg erased, ih, before, behind, List.drop_eq_getElem_cons h,
      List.filter_cons_of_neg erased]
  | case3 i xs h =>
    have past : xs.length ≤ i := by omega
    rw [eraseFrom, dif_neg h, List.take_of_length_le past, List.drop_of_length_le past,
      List.filter_nil, List.append_nil]

theorem eraseFrom_zero (xs : List α) : eraseFrom keep 0 xs = xs.filter keep := by
  rw [eraseFrom_eq, List.take_zero, List.nil_append, List.drop_zero]

end Erase

section Update

variable (f : α → α)

def updateFrom (i : Nat) (xs : List α) : List α :=
  if h : i < xs.length then updateFrom (i + 1) (xs.set i (f xs[i])) else xs
termination_by xs.length - i
decreasing_by
  rw [List.length_set]
  omega

theorem updateFrom_eq (i : Nat) (xs : List α) :
    updateFrom f i xs = xs.take i ++ (xs.drop i).map f := by
  induction i, xs using updateFrom.induct f with
  | case1 i xs h ih =>
    have bound : i < (xs.set i (f xs[i])).length := by
      rw [List.length_set]
      exact h
    rw [updateFrom, dif_pos h, ih, List.take_succ_eq_append_getElem bound, List.getElem_set_self,
      List.take_set_of_le (Nat.le_refl i), List.drop_set_of_lt (Nat.lt_succ_self i),
      List.drop_eq_getElem_cons h, List.map_cons, List.append_assoc, List.singleton_append]
  | case2 i xs h =>
    have past : xs.length ≤ i := by omega
    rw [updateFrom, dif_neg h, List.take_of_length_le past, List.drop_of_length_le past,
      List.map_nil, List.append_nil]

theorem updateFrom_zero (xs : List α) : updateFrom f 0 xs = xs.map f := by
  rw [updateFrom_eq, List.take_zero, List.nil_append, List.drop_zero]

end Update

end UnixProgramming.InPlace
