import Mathlib.Data.List.Basic

/-!
# Maps ordered by a comparison

A map as the list of its entries in ascending order, and what an assignment does to it. Two
keys of which neither is less than the other are the same key.
-/

namespace UnixProgramming.OrderedMap

variable {K V : Type} (less : K → K → Bool)

/-- `map[k] = v`: an entry with the same key keeps its key. -/
def assign (k : K) (v : V) : List (K × V) → List (K × V)
  | [] => [(k, v)]
  | (k', v') :: rest =>
    if less k' k then (k', v') :: assign k v rest
    else if less k k' then (k, v) :: (k', v') :: rest
    else (k', v) :: rest

/-- The entries are in ascending order. -/
def Ascending (entries : List (K × V)) : Prop := entries.Pairwise fun e e' => less e.1 e'.1 = true

/-- The key is not among those of the entries. -/
def Apart (k : K) (entries : List (K × V)) : Prop :=
  ∀ e ∈ entries, less e.1 k = true ∨ less k e.1 = true

variable {less} {k : K} {v : V} {entries : List (K × V)}

theorem assign_perm (apart : Apart less k entries) : (assign less k v entries).Perm ((k, v) :: entries) := by
  induction entries with
  | nil => rfl
  | cons e rest ih =>
    obtain ⟨k', v'⟩ := e
    obtain ⟨here, apart⟩ := List.forall_mem_cons.mp apart
    rw [assign]
    by_cases before : less k' k = true
    · rw [if_pos before]
      exact ((ih apart).cons _).trans (List.Perm.swap _ _ _)
    · rw [if_neg before, if_pos (here.resolve_left before)]

theorem assign_ascending (trans : ∀ a b c, less a b = true → less b c = true → less a c = true)
    (apart : Apart less k entries) (ascending : Ascending less entries) :
    Ascending less (assign less k v entries) := by
  induction entries with
  | nil => exact List.pairwise_singleton _ _
  | cons e rest ih =>
    have whole : Apart less k (e :: rest) := apart
    obtain ⟨k', v'⟩ := e
    obtain ⟨here, apart⟩ := List.forall_mem_cons.mp apart
    obtain ⟨first, later⟩ := List.pairwise_cons.mp ascending
    rw [assign]
    by_cases before : less k' k = true
    · rw [if_pos before]
      refine List.pairwise_cons.mpr ⟨fun e' member => ?_, ih apart later⟩
      obtain rfl | other := List.mem_cons.mp ((assign_perm apart).mem_iff.mp member)
      · exact before
      · exact first e' other
    · have behind : less k k' = true := here.resolve_left before
      rw [if_neg before, if_pos behind]
      refine List.pairwise_cons.mpr ⟨fun e' member => ?_, ascending⟩
      obtain rfl | other := List.mem_cons.mp member
      · exact behind
      · exact trans _ _ _ behind (first e' other)

/-- Assignments one after the other, to keys that are all different. -/
theorem assigned (trans : ∀ a b c, less a b = true → less b c = true → less a c = true)
    {added : List (K × V)} (apart : added.Pairwise fun e e' => less e.1 e'.1 = true ∨ less e'.1 e.1 = true)
    (fresh : ∀ e ∈ added, Apart less e.1 entries) (ascending : Ascending less entries) :
    (added.foldl (fun m e => assign less e.1 e.2 m) entries).Perm (added ++ entries) ∧
      Ascending less (added.foldl (fun m e => assign less e.1 e.2 m) entries) := by
  induction added generalizing entries with
  | nil => exact ⟨List.Perm.refl _, ascending⟩
  | cons e rest ih =>
    obtain ⟨first, apart⟩ := List.pairwise_cons.mp apart
    obtain ⟨here, fresh⟩ := List.forall_mem_cons.mp fresh
    have step := assign_perm (v := e.2) here
    have fresh' : ∀ e' ∈ rest, Apart less e'.1 (assign less e.1 e.2 entries) := by
      intro e' listed d member
      obtain rfl | older := List.mem_cons.mp (step.mem_iff.mp member)
      · exact first e' listed
      · exact fresh e' listed d older
    obtain ⟨perm, ascending'⟩ := ih apart fresh' (assign_ascending trans here ascending)
    exact ⟨perm.trans ((step.append_left rest).trans List.perm_middle), ascending'⟩

/-- Assignments to an empty map. -/
theorem assigned_empty (trans : ∀ a b c, less a b = true → less b c = true → less a c = true)
    {added : List (K × V)}
    (apart : added.Pairwise fun e e' => less e.1 e'.1 = true ∨ less e'.1 e.1 = true) :
    (added.foldl (fun m e => assign less e.1 e.2 m) []).Perm added ∧
      Ascending less (added.foldl (fun m e => assign less e.1 e.2 m) []) := by
  have fresh : ∀ e ∈ added, Apart less e.1 ([] : List (K × V)) := fun e _ d none => by cases none
  rcases assigned trans apart fresh List.Pairwise.nil with ⟨perm, ascending⟩
  rw [List.append_nil] at perm
  exact ⟨perm, ascending⟩

end UnixProgramming.OrderedMap
