import Mathlib.Data.List.Basic

/-!
# Options among words

GNU `getopt` with permutation: options are recognised wherever they stand, up to the word
`--`, and the words that are no options end up behind them in their order. `scan` gives
the options in the order in which they are returned, and the words from `optind` on.
-/

namespace UnixProgramming.Getopt

abbrev Word := List Char

/-- What `getopt` returns: an option with its `optarg`, or `'?'`. -/
inductive Item where
  | option (c : Char) (optarg : Option Word)
  | invalid
  deriving DecidableEq

/-- A word that starts with `-` and is longer. -/
def OptionLike : Word → Prop
  | '-' :: _ :: _ => True
  | _ => False

instance OptionLike.decidable (w : Word) : Decidable (OptionLike w) := by
  unfold OptionLike
  split <;> infer_instance

section Scan

-- for an option, whether it takes an argument
variable (takesArg : Char → Option Bool)

/-- The options in one word, and the one that takes the next word as its argument. -/
def cluster : Word → List Item × Option Char
  | [] => ([], none)
  | c :: cs => match takesArg c with
    | none => (.invalid :: (cluster cs).1, (cluster cs).2)
    | some false => (.option c none :: (cluster cs).1, (cluster cs).2)
    | some true => if cs = [] then ([], some c) else ([.option c (some cs)], none)

/-- The scan, after an option that still waits for its argument or not. -/
def scan : Option Char → List Word → List Item × List Word
  | none, [] => ([], [])
  | some _, [] => ([.invalid], [])
  | some c, w :: ws => (.option c (some w) :: (scan none ws).1, (scan none ws).2)
  | none, w :: ws =>
    if w = ['-', '-'] then
      ([], ws)
    else if OptionLike w then
      let (items, pending) := cluster takesArg w.tail
      (items ++ (scan pending ws).1, (scan pending ws).2)
    else
      ((scan none ws).1, w :: (scan none ws).2)

variable {takesArg} {w : Word} {ws : List Word}

theorem scan_separator : scan takesArg none (['-', '-'] :: ws) = ([], ws) := by
  rw [scan, if_pos rfl]

theorem scan_cons_plain (plain : ¬ OptionLike w) :
    scan takesArg none (w :: ws) = ((scan takesArg none ws).1, w :: (scan takesArg none ws).2) := by
  have other : w ≠ ['-', '-'] := by
    rintro rfl
    exact plain trivial
  rw [scan, if_neg other, if_neg plain]

/-- Words that are no options stay as they are. -/
theorem scan_plain (plain : ∀ w ∈ ws, ¬ OptionLike w) : scan takesArg none ws = ([], ws) := by
  induction ws with
  | nil => rfl
  | cons w ws ih =>
    obtain ⟨first, rest⟩ := List.forall_mem_cons.mp plain
    rw [scan_cons_plain first, ih rest]

theorem scan_option {c : Char} {cs : Word} (other : c ≠ '-') :
    scan takesArg none (('-' :: c :: cs) :: ws) =
      ((cluster takesArg (c :: cs)).1 ++ (scan takesArg (cluster takesArg (c :: cs)).2 ws).1,
        (scan takesArg (cluster takesArg (c :: cs)).2 ws).2) := by
  have noSeparator : '-' :: c :: cs ≠ ['-', '-'] := by
    intro same
    exact other (List.cons.inj (List.cons.inj same).2).1
  have option : OptionLike ('-' :: c :: cs) := trivial
  rw [scan, if_neg noSeparator, if_pos option, List.tail_cons]

/-- An option in a word of its own, its argument in the next. -/
theorem scan_separate {c : Char} (takes : takesArg c = some true) (other : c ≠ '-') :
    scan takesArg none (['-', c] :: w :: ws) =
      (.option c (some w) :: (scan takesArg none ws).1, (scan takesArg none ws).2) := by
  rw [scan_option other, cluster, takes]
  rfl

/-- An option with its argument in the same word. -/
theorem scan_joined {c a : Char} {as : Word} (takes : takesArg c = some true) (other : c ≠ '-') :
    scan takesArg none (('-' :: c :: a :: as) :: ws) =
      (.option c (some (a :: as)) :: (scan takesArg none ws).1, (scan takesArg none ws).2) := by
  rw [scan_option other, cluster, takes]
  rfl

theorem scan_length_le (pending : Option Char) :
    (scan takesArg pending ws).2.length ≤ ws.length := by
  induction ws generalizing pending with
  | nil => cases pending <;> exact Nat.le_refl _
  | cons w ws ih =>
    cases pending with
    | some c => exact Nat.le_succ_of_le (ih none)
    | none =>
      rw [scan]
      split
      · exact Nat.le_succ _
      · split
        · exact Nat.le_succ_of_le (ih _)
        · exact Nat.succ_le_succ (ih none)

/-- An option comes with an argument if and only if it takes one. -/
def Item.Known (takesArg : Char → Option Bool) : Item → Prop
  | .option c optarg => takesArg c = some optarg.isSome
  | .invalid => True

theorem cluster_known (w : Word) : (∀ item ∈ (cluster takesArg w).1, item.Known takesArg) ∧
    ∀ c ∈ (cluster takesArg w).2, takesArg c = some true := by
  induction w with
  | nil => simp [cluster]
  | cons c cs ih =>
    rw [cluster]
    cases takes : takesArg c with
    | none => exact ⟨List.forall_mem_cons.mpr ⟨trivial, ih.1⟩, ih.2⟩
    | some takesOne =>
      cases takesOne with
      | false => exact ⟨List.forall_mem_cons.mpr ⟨takes, ih.1⟩, ih.2⟩
      | true =>
        dsimp only
        split
        · exact ⟨by simp, by simp [takes]⟩
        · exact ⟨List.forall_mem_singleton.mpr takes, by simp⟩

theorem scan_known {pending : Option Char} (waits : ∀ c ∈ pending, takesArg c = some true) :
    ∀ item ∈ (scan takesArg pending ws).1, item.Known takesArg := by
  induction ws generalizing pending with
  | nil =>
    cases pending with
    | none => simp [scan]
    | some c => exact List.forall_mem_singleton.mpr trivial
  | cons w ws ih =>
    have fresh : ∀ c ∈ (none : Option Char), takesArg c = some true := by simp
    cases pending with
    | some c => exact List.forall_mem_cons.mpr ⟨waits c rfl, ih fresh⟩
    | none =>
      rw [scan]
      split
      · simp
      · split
        · exact List.forall_mem_append.mpr ⟨(cluster_known w.tail).1, ih (cluster_known w.tail).2⟩
        · exact ih fresh

/-- Any option is missing from the words that are left. -/
theorem plain_of_scan_length (kept : (scan takesArg none ws).2.length = ws.length) :
    ∀ w ∈ ws, ¬ OptionLike w := by
  induction ws with
  | nil => simp
  | cons w ws ih =>
    rw [scan] at kept
    split at kept
    · simp at kept
    · split at kept
      · have shorter : (scan takesArg (cluster takesArg w.tail).2 ws).2.length ≤ ws.length :=
          scan_length_le _
        simp only [List.length_cons] at kept
        omega
      · next plain => exact List.forall_mem_cons.mpr ⟨plain, ih (Nat.succ.inj kept)⟩

end Scan

section Arguments

/-- A part of a command line: a word that is no option, or an option with its argument in the
next word or in its own. -/
inductive Argument where
  | plain (w : Word)
  | separate (c : Char) (optarg : Word)
  | joined (c a : Char) (as : Word)

namespace Argument

def words : Argument → List Word
  | .plain w => [w]
  | .separate c optarg => [['-', c], optarg]
  | .joined c a as => ['-' :: c :: a :: as]

def item? : Argument → Option Item
  | .plain _ => none
  | .separate c optarg => some (.option c (some optarg))
  | .joined c a as => some (.option c (some (a :: as)))

def plain? : Argument → Option Word
  | .plain w => some w
  | _ => none

/-- The options are among those that take an argument. -/
def Valid (takesArg : Char → Option Bool) : Argument → Prop
  | .plain w => ¬ OptionLike w
  | .separate c _ | .joined c _ _ => c ≠ '-' ∧ takesArg c = some true

instance (takesArg : Char → Option Bool) (arg : Argument) : Decidable (arg.Valid takesArg) := by
  cases arg <;> unfold Valid <;> infer_instance

end Argument

variable {takesArg : Char → Option Bool} {args : List Argument}

theorem scan_argument {arg : Argument} (valid : arg.Valid takesArg) (ws : List Word) :
    scan takesArg none (arg.words ++ ws) =
      (arg.item?.toList ++ (scan takesArg none ws).1, arg.plain?.toList ++ (scan takesArg none ws).2) := by
  cases arg with
  | plain w => exact scan_cons_plain valid
  | separate c optarg => exact scan_separate valid.2 valid.1
  | joined c a as => exact scan_joined valid.2 valid.1

/-- Options and words may stand in any order: each kind comes back in its own. -/
theorem scan_arguments (valid : ∀ arg ∈ args, arg.Valid takesArg) :
    scan takesArg none (args.flatMap Argument.words) =
      (args.filterMap Argument.item?, args.filterMap Argument.plain?) := by
  induction args with
  | nil => rfl
  | cons arg args ih =>
    obtain ⟨first, rest⟩ := List.forall_mem_cons.mp valid
    rw [List.flatMap_cons, scan_argument first, ih rest]
    cases arg <;> rfl

end Arguments

end UnixProgramming.Getopt
