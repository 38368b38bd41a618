import Mathlib.Data.List.Range
import Mathlib.Logic.Function.Basic

/-!
# Descriptor tables

A table says which open file each descriptor stands for. Open files are numbered in the
order in which they were opened, so a new one is a new number; opening takes the lowest
free descriptor, and a duplicate stands for the same open file.
-/

namespace UnixProgramming.Descriptor

/-- An open file, by its number. -/
abbrev File := Nat

structure Table where
  file : Nat → Option File
  bound : Nat
  next : File
  free : ∀ d, bound ≤ d → file d = none
  numbered : ∀ {d f}, file d = some f → f < next

namespace Table

variable {t : Table} {d e : Nat} {f : File}

/-- The lowest free descriptor. -/
def lowest (t : Table) : Nat := ((List.range t.bound).find? fun d => (t.file d).isNone).getD t.bound

theorem file_lowest (t : Table) : t.file t.lowest = none := by
  unfold lowest
  cases found : (List.range t.bound).find? fun d => (t.file d).isNone with
  | none => exact t.free _ le_rfl
  | some d => simpa using List.find?_some found

/-- What a descriptor given by a program stands for. -/
def lookup (t : Table) : Int → Option File
  | .ofNat d => t.file d
  | .negSucc _ => none

theorem lookup_numbered {fd : Int} (h : t.lookup fd = some f) : f < t.next := by
  cases fd with
  | ofNat d => exact t.numbered h
  | negSucc d => cases h

/-- Open a new file at the lowest free descriptor. -/
def openNew (t : Table) : Table where
  file := Function.update t.file t.lowest (some t.next)
  bound := max t.bound (t.lowest + 1)
  next := t.next + 1
  free d high := by
    rw [Function.update_of_ne (by omega)]
    exact t.free d (by omega)
  numbered {d f} h := by
    by_cases here : d = t.lowest
    · rw [here, Function.update_self, Option.some.injEq] at h
      exact h ▸ Nat.lt_succ_self t.next
    · rw [Function.update_of_ne here] at h
      exact Nat.lt_succ_of_lt (t.numbered h)

theorem openNew_keeps (h : t.file d = some f) : t.openNew.file d = some f := by
  have other : d ≠ t.lowest := by
    rintro rfl
    rw [file_lowest] at h
    cases h
  exact (Function.update_of_ne other _ _).trans h

def close (t : Table) (d : Nat) : Table where
  file := Function.update t.file d none
  bound := t.bound
  next := t.next
  free e high := by
    by_cases here : e = d
    · rw [here, Function.update_self]
    · rw [Function.update_of_ne here]
      exact t.free e high
  numbered {e f} h := by
    by_cases here : e = d
    · rw [here, Function.update_self] at h
      cases h
    · rw [Function.update_of_ne here] at h
      exact t.numbered h

@[simp] theorem close_self (t : Table) (d : Nat) : (t.close d).file d = none := Function.update_self d _ _

theorem close_of_ne (h : e ≠ d) : (t.close d).file e = t.file e := Function.update_of_ne h _ _

theorem openNew_lookup {fd : Int} (h : t.lookup fd = some f) : t.openNew.lookup fd = some f := by
  cases fd with
  | ofNat d => exact openNew_keeps h
  | negSucc d => cases h

theorem close_lookup {fd : Int} (h : t.lookup fd = some f) :
    (t.close d).lookup fd = some f ↔ fd ≠ d := by
  cases fd with
  | ofNat e =>
    change (t.close d).file e = some f ↔ (e : Int) ≠ d
    by_cases same : e = d
    · simp [same]
    · rw [close_of_ne same]
      exact iff_of_true h (by omega)
  | negSucc e => cases h

/-- Make `e` stand for what `d` stands for; nothing happens if that is nothing. -/
def dup2 (t : Table) (d e : Nat) : Table where
  file := if (t.file d).isSome then Function.update t.file e (t.file d) else t.file
  bound := max t.bound (e + 1)
  next := t.next
  free k high := by
    split
    · rw [Function.update_of_ne (by omega)]
      exact t.free k (by omega)
    · exact t.free k (by omega)
  numbered {k f} h := by
    split at h
    · by_cases here : k = e
      · rw [here, Function.update_self] at h
        exact t.numbered h
      · rw [Function.update_of_ne here] at h
        exact t.numbered h
    · exact t.numbered h

theorem dup2_file (h : t.file d = some f) : (t.dup2 d e).file e = some f := by
  simp [dup2, h]

end Table

end UnixProgramming.Descriptor
