import Mathlib.Algebra.Group.Nat.Defs
import Mathlib.Algebra.Ring.Int.Defs
import Mathlib.Data.List.Infix
import Mathlib.Data.List.TakeWhile

/-!
# Words and numerals

How the C library takes text apart: the runs of characters between separators, and the
number at the start of a text.
-/

namespace UnixProgramming.Text

section Words

def isspace (c : Char) : Bool := c = ' ' ∨ 9 ≤ c.toNat ∧ c.toNat ≤ 13

def isdigit (c : Char) : Bool := '0' ≤ c ∧ c ≤ '9'

variable {α : Type}

/-- The maximal nonempty runs of elements that are no separators. -/
def runs (sep : α → Bool) : List α → List (List α)
  | [] => []
  | x :: xs =>
    if sep x then
      runs sep xs
    else
      match xs, runs sep xs with
      | y :: _, run :: rest => if sep y then [x] :: run :: rest else (x :: run) :: rest
      | _, _ => [[x]]

/-- A list as one piece, unless it is empty. -/
def unlessEmpty (xs : List α) : List (List α) := if xs.isEmpty then [] else [xs]

theorem runs_sep {sep : α → Bool} {x : α} (h : sep x = true) (xs : List α) :
    runs sep (x :: xs) = runs sep xs := by
  rw [runs.eq_def]
  simp [h]

/-- A separator ends a run. -/
theorem runs_last {sep : α → Bool} {x y : α} (h : sep x = false) (last : sep y = true)
    (ys : List α) : runs sep (x :: y :: ys) = [x] :: runs sep ys := by
  rw [runs.eq_def]
  dsimp only
  rw [runs_sep last]
  cases runs sep ys <;> simp [h, last]

/-- A run that goes on. -/
theorem runs_more {sep : α → Bool} {x y : α} (h : sep x = false) (goes_on : sep y = false)
    {xs run : List α} {rest : List (List α)} (tail : runs sep (y :: xs) = run :: rest) :
    runs sep (x :: y :: xs) = (x :: run) :: rest := by
  rw [runs.eq_def]
  dsimp only
  rw [tail]
  simp [h, goes_on]

theorem runs_append_sep {sep : α → Bool} {xs ys : List α} {y : α} (inner : ∀ x ∈ xs, sep x = false)
    (last : sep y = true) : runs sep (xs ++ y :: ys) = unlessEmpty xs ++ runs sep ys := by
  induction xs with
  | nil => exact runs_sep last ys
  | cons x xs ih =>
    obtain ⟨first, inner⟩ := List.forall_mem_cons.mp inner
    cases xs with
    | nil => exact runs_last first last ys
    | cons z zs => exact runs_more first (inner z List.mem_cons_self) (ih inner)

theorem runs_of_inner {sep : α → Bool} {xs : List α} (inner : ∀ x ∈ xs, sep x = false) :
    runs sep xs = unlessEmpty xs := by
  induction xs with
  | nil => rfl
  | cons x xs ih =>
    obtain ⟨first, inner⟩ := List.forall_mem_cons.mp inner
    cases xs with
    | nil => simp [runs, first, unlessEmpty]
    | cons z zs => exact runs_more first (inner z List.mem_cons_self) (ih inner)

theorem unlessEmpty_eq_singleton {xs : List α} (nonempty : xs ≠ []) : unlessEmpty xs = [xs] := by
  cases xs with
  | nil => exact absurd rfl nonempty
  | cons x xs => rfl

/-- A word is its own run. -/
theorem runs_word {sep : α → Bool} {word : List α} (nonempty : word ≠ [])
    (inner : ∀ x ∈ word, sep x = false) : runs sep word = [word] := by
  rw [runs_of_inner inner, unlessEmpty_eq_singleton nonempty]

theorem runs_word_append {sep : α → Bool} {word ys : List α} {y : α} (nonempty : word ≠ [])
    (inner : ∀ x ∈ word, sep x = false) (last : sep y = true) :
    runs sep (word ++ y :: ys) = word :: runs sep ys := by
  rw [runs_append_sep inner last, unlessEmpty_eq_singleton nonempty]
  rfl

/-- A list is one stretch without separators, or such a stretch and a separator in front of
a shorter list. -/
theorem stretches {motive : List α → Prop} (sep : α → Bool)
    (inner : ∀ xs, (∀ x ∈ xs, sep x = false) → motive xs)
    (next : ∀ xs y ys, (∀ x ∈ xs, sep x = false) → sep y = true → motive ys → motive (xs ++ y :: ys))
    (xs : List α) : motive xs := by
  have from_start (start : List α) (clear : ∀ x ∈ start, sep x = false) : motive (start ++ xs) := by
    induction xs generalizing start with
    | nil => exact inner _ (by simpa using clear)
    | cons x xs ih =>
      by_cases here : sep x = true
      · exact next start x xs clear here (ih [] (by simp))
      · rw [List.append_cons]
        refine ih (start ++ [x]) fun y member => ?_
        obtain before | rfl := List.mem_append.mp member |>.imp_right List.mem_singleton.mp
        · exact clear y before
        · exact eq_false_of_ne_true here
  exact from_start [] (by simp)

theorem runs_append {sep : α → Bool} {y : α} (here : sep y = true) (xs ys : List α) :
    runs sep (xs ++ y :: ys) = runs sep xs ++ runs sep ys := by
  induction xs using stretches sep with
  | inner xs clear => rw [runs_append_sep clear here, runs_of_inner clear]
  | next xs z zs clear last ih =>
    rw [List.append_assoc, List.cons_append, runs_append_sep clear last, ih,
      runs_append_sep clear last, List.append_assoc]

theorem runs_eq_nil {sep : α → Bool} {xs : List α} : runs sep xs = [] ↔ ∀ x ∈ xs, sep x = true := by
  induction xs using stretches sep with
  | inner xs clear =>
    rw [runs_of_inner clear]
    cases xs with
    | nil => simp [unlessEmpty]
    | cons x xs => simpa [unlessEmpty] using fun here => absurd here (by simp [clear x])
  | next xs y ys clear last ih =>
    rw [runs_append_sep clear last, List.append_eq_nil_iff, ih]
    cases xs with
    | nil => simp [unlessEmpty, last]
    | cons x xs => simpa [unlessEmpty] using fun here => absurd here (by simp [clear x])

theorem runs_append_blank {sep : α → Bool} {ys : List α} (blank : ∀ y ∈ ys, sep y = true)
    (xs : List α) : runs sep (xs ++ ys) = runs sep xs := by
  cases ys with
  | nil => rw [List.append_nil]
  | cons y ys =>
    obtain ⟨here, blank⟩ := List.forall_mem_cons.mp blank
    rw [runs_append here, runs_eq_nil.mpr blank, List.append_nil]

theorem runs_blank_append {sep : α → Bool} {xs : List α} (blank : ∀ x ∈ xs, sep x = true)
    (ys : List α) : runs sep (xs ++ ys) = runs sep ys := by
  induction xs with
  | nil => rfl
  | cons x xs ih =>
    obtain ⟨here, blank⟩ := List.forall_mem_cons.mp blank
    rw [List.cons_append, runs_sep here, ih blank]

theorem mem_unlessEmpty {xs run : List α} (one : run ∈ unlessEmpty xs) : run = xs ∧ run ≠ [] := by
  cases xs with
  | nil => cases one
  | cons x xs =>
    rcases List.mem_singleton.mp one with rfl
    exact ⟨rfl, List.cons_ne_nil x xs⟩

/-- A run is a nonempty stretch of the list without separators. -/
theorem stretch_of_mem_runs {sep : α → Bool} {xs run : List α} (member : run ∈ runs sep xs) :
    run ≠ [] ∧ run <:+: xs ∧ ∀ x ∈ run, sep x = false := by
  induction xs using stretches sep with
  | inner xs clear =>
    rw [runs_of_inner clear] at member
    rcases mem_unlessEmpty member with ⟨rfl, nonempty⟩
    exact ⟨nonempty, List.infix_rfl, clear⟩
  | next xs y ys clear last ih =>
    rw [runs_append_sep clear last] at member
    rcases List.mem_append.mp member with first | later
    · rcases mem_unlessEmpty first with ⟨rfl, nonempty⟩
      exact ⟨nonempty, (List.prefix_append run (y :: ys)).isInfix, clear⟩
    · rcases ih later with ⟨nonempty, inside, clear⟩
      have behind : ys <:+ xs ++ y :: ys :=
        (List.suffix_cons y ys).trans (List.suffix_append xs (y :: ys))
      exact ⟨nonempty, inside.trans behind.isInfix, clear⟩

theorem mem_of_mem_runs {sep : α → Bool} {xs run : List α} (member : run ∈ runs sep xs) {x : α}
    (inside : x ∈ run) : x ∈ xs := (stretch_of_mem_runs member).2.1.mem inside

theorem not_sep_of_mem_runs {sep : α → Bool} {xs run : List α} (member : run ∈ runs sep xs) {x : α}
    (inside : x ∈ run) : sep x = false := (stretch_of_mem_runs member).2.2 x inside

theorem ne_nil_of_mem_runs {sep : α → Bool} {xs run : List α} (member : run ∈ runs sep xs) :
    run ≠ [] := (stretch_of_mem_runs member).1

/-- The runs are what is left without the separators. -/
theorem flatten_runs (sep : α → Bool) (xs : List α) : (runs sep xs).flatten = xs.filter fun x => !sep x := by
  have whole (ys : List α) : (unlessEmpty ys).flatten = ys := by cases ys <;> simp [unlessEmpty]
  have kept {ys : List α} (clear : ∀ y ∈ ys, sep y = false) : ys.filter (fun y => !sep y) = ys :=
    List.filter_eq_self.mpr fun y listed => by rw [clear y listed]; rfl
  induction xs using stretches sep with
  | inner xs clear => rw [runs_of_inner clear, whole, kept clear]
  | next xs y ys clear last ih =>
    rw [runs_append_sep clear last, List.flatten_append, whole, ih, List.filter_append, kept clear,
      List.filter_cons_of_neg (by simp [last])]

/-- They are the nonempty pieces between the separators. -/
theorem runs_eq_splitOnP (sep : α → Bool) (xs : List α) :
    runs sep xs = (xs.splitOnP sep).filter (· ≠ []) := by
  have one (ys : List α) (rest : List (List α)) :
      (ys :: rest).filter (· ≠ []) = unlessEmpty ys ++ rest.filter (· ≠ []) := by
    cases ys <;> simp [unlessEmpty]
  induction xs using stretches sep with
  | inner xs clear =>
    rw [runs_of_inner clear, List.splitOnP_eq_singleton clear, one]
    exact (List.append_nil _).symm
  | next xs y ys clear last ih =>
    rw [runs_append_sep clear last, List.splitOnP_append_cons_of_forall_mem clear y last, one, ih]

theorem exists_run {sep : α → Bool} {xs : List α} {x : α} (inside : x ∈ xs) (inner : sep x = false) :
    ∃ run ∈ runs sep xs, x ∈ run := by
  have whole {ys : List α} (here : x ∈ ys) : unlessEmpty ys = [ys] :=
    unlessEmpty_eq_singleton (List.ne_nil_of_mem here)
  induction xs using stretches sep with
  | inner xs clear =>
    rw [runs_of_inner clear, whole inside]
    exact ⟨xs, List.mem_singleton_self _, inside⟩
  | next xs y ys clear last ih =>
    rw [runs_append_sep clear last]
    obtain first | later := List.mem_append.mp inside
    · rw [whole first]
      exact ⟨xs, List.mem_cons_self, first⟩
    · obtain rfl | later := List.mem_cons.mp later
      · cases last.symm.trans inner
      · obtain ⟨run, found, within⟩ := ih later
        exact ⟨run, List.mem_append_right _ found, within⟩

/-- The runs of a list that has been cut up are those of one of the parts if the other parts
have none. -/
theorem runs_flatten {sep : α → Bool} {parts : List (List α)}
    (one : parts.countP (runs sep · ≠ []) ≤ 1) :
    (parts.map (runs sep)).filter (· ≠ []) = unlessEmpty (runs sep parts.flatten) := by
  induction parts with
  | nil => rfl
  | cons part parts ih =>
    rw [List.flatten_cons, List.map_cons]
    by_cases blank : runs sep part = []
    · rw [List.countP_cons_of_neg (by simpa using blank)] at one
      rw [List.filter_cons_of_neg (by simpa using blank), ih one,
        runs_blank_append (runs_eq_nil.mp blank)]
    · rw [List.countP_cons_of_pos (by simpa using blank)] at one
      have none : parts.countP (runs sep · ≠ []) = 0 := by omega
      have others : ∀ p ∈ parts, runs sep p = [] := by simpa [List.countP_eq_zero] using none
      have rest : (parts.map (runs sep)).filter (· ≠ []) = [] := by
        simpa [List.filter_eq_nil_iff] using others
      have tail : ∀ x ∈ parts.flatten, sep x = true := by
        intro x member
        obtain ⟨p, listed, inside⟩ := List.mem_flatten.mp member
        exact runs_eq_nil.mp (others p listed) x inside
      rw [List.filter_cons_of_pos (by simpa using blank), rest, runs_append_blank tail]
      simp [unlessEmpty, blank]

theorem length_unlessEmpty_le (xs : List α) : (unlessEmpty xs).length ≤ 1 := by
  unfold unlessEmpty
  split <;> simp

theorem length_runs_parts (sep : α → Bool) (parts : List (List α)) :
    ((parts.map (runs sep)).filter (· ≠ [])).length = parts.countP (runs sep · ≠ []) := by
  rw [← List.countP_eq_length_filter, List.countP_map]
  rfl

/-- What `strtok_r` finds, call after call: the rest of a list from the start of each run on.
`fresh` says that a run may start here. -/
def tokens (sep : α → Bool) : Bool → List α → List (List α)
  | _, [] => []
  | fresh, x :: xs =>
    if sep x then tokens sep true xs
    else if fresh then (x :: xs) :: tokens sep false xs
    else tokens sep false xs

/-- What `>>` reads from a stream of characters. -/
def words (text : String) : List String := (runs isspace text.toList).map String.ofList

end Words

section Lines

def nul : Char := Char.ofNat 0

def newline : Char := Char.ofNat 10

def tab : Char := Char.ofNat 9

/-- The C string at the start of an array. -/
def upToNul (array : List Char) : List Char := array.takeWhile (· ≠ nul)

theorem upToNul_eq_self {array : List Char} (clean : nul ∉ array) : upToNul array = array := by
  refine List.takeWhile_eq_self_iff.mpr fun c member => ?_
  rw [decide_eq_true_eq]
  rintro rfl
  exact clean member

/-- What the calls of `fgets` return that read a text to its end, when each call has room
for `size + 1` characters and the first one for `room + 1`. -/
def pieces (size : Nat) : Nat → List Char → List (List Char)
  | _, [] => []
  | room, c :: text =>
    if c = newline ∨ room = 0 then
      [c] :: pieces size size text
    else
      match pieces size (room - 1) text with
      | [] => [[c]]
      | piece :: rest => (c :: piece) :: rest

/-- The calls of `fgets` with a buffer of `n` characters, which keep one for the NUL. -/
def fgets (n : Nat) (text : List Char) : List (List Char) := pieces (n - 2) (n - 2) text

theorem pieces_ne_nil {size room : Nat} {text : List Char} :
    ∀ piece ∈ pieces size room text, piece ≠ [] := by
  induction text generalizing room with
  | nil => simp [pieces]
  | cons c text ih =>
    rw [pieces]
    split
    · exact List.forall_mem_cons.mpr ⟨List.cons_ne_nil _ _, ih⟩
    · cases rest : pieces size (room - 1) text with
      | nil => simp
      | cons piece others =>
        have later := @ih (room - 1)
        rw [rest] at later
        exact List.forall_mem_cons.mpr ⟨List.cons_ne_nil _ _, (List.forall_mem_cons.mp later).2⟩

theorem pieces_flatten (size room : Nat) (text : List Char) :
    (pieces size room text).flatten = text := by
  induction text generalizing room with
  | nil => rfl
  | cons c text ih =>
    rw [pieces]
    split
    · rw [List.flatten_cons, ih, List.singleton_append]
    · have tail := ih (room - 1)
      cases rest : pieces size (room - 1) text with
      | nil =>
        rw [rest] at tail
        rw [← tail]
        rfl
      | cons piece others =>
        rw [rest, List.flatten_cons] at tail
        simp [tail]

/-- A line that fits is read in one piece. -/
theorem pieces_short {size room : Nat} {line : List Char} (inside : newline ∉ line)
    (fits : line.length ≤ room) : pieces size room (line ++ [newline]) = [line ++ [newline]] := by
  induction line generalizing room with
  | nil => simp [pieces]
  | cons c line ih =>
    have other : c ≠ newline := fun same => inside (same ▸ List.mem_cons_self)
    rw [List.length_cons] at fits
    have more : ¬ (c = newline ∨ room = 0) := not_or.mpr ⟨other, by omega⟩
    rw [List.cons_append, pieces, if_neg more,
      ih (List.not_mem_of_not_mem_cons inside) (by omega)]

/-- After a newline `fgets` starts afresh. -/
theorem pieces_append (size room : Nat) (xs ys : List Char) :
    pieces size room (xs ++ newline :: ys) =
      pieces size room (xs ++ [newline]) ++ pieces size size ys := by
  induction xs generalizing room with
  | nil => simp [pieces]
  | cons c xs ih =>
    rw [List.cons_append, List.cons_append, pieces, pieces]
    split
    · rw [ih, List.cons_append]
    · rw [ih]
      cases rest : pieces size (room - 1) (xs ++ [newline]) with
      | nil =>
        have text := pieces_flatten size (room - 1) (xs ++ [newline])
        rw [rest] at text
        simp at text
      | cons piece others => rfl

/-- What the calls of `getline` return that read a text to its end. -/
def getlines : List Char → List (List Char)
  | [] => []
  | c :: text =>
    if c = newline then
      [] :: getlines text
    else
      match getlines text with
      | [] => [[c]]
      | line :: rest => (c :: line) :: rest

theorem getlines_append {line : List Char} (inside : newline ∉ line) (text : List Char) :
    getlines (line ++ newline :: text) = line :: getlines text := by
  induction line with
  | nil => rw [List.nil_append, getlines, if_pos rfl]
  | cons c line ih =>
    have other : c ≠ newline := fun same => inside (same ▸ List.mem_cons_self)
    rw [List.cons_append, getlines, if_neg other, ih (List.not_mem_of_not_mem_cons inside)]

/-- Lines that have been written one after the other are read as they are. -/
theorem getlines_flatMap {lines : List (List Char)} (inside : ∀ line ∈ lines, newline ∉ line) :
    getlines (lines.flatMap (· ++ [newline])) = lines := by
  induction lines with
  | nil => rfl
  | cons line lines ih =>
    rcases List.forall_mem_cons.mp inside with ⟨first, inside⟩
    rw [List.flatMap_cons, List.append_assoc, List.singleton_append, getlines_append first, ih inside]

/-- The lines of a file, as `getline` stores them in a string. -/
def fileLines (text : List Char) : List String := (getlines text).map String.ofList

end Lines

section Numerals

def digit (base : Nat) (c : Char) : Option Nat :=
  let value :=
    if isdigit c then some (c.toNat - '0'.toNat)
    else if 'a' ≤ c ∧ c ≤ 'z' then some (c.toNat - 'a'.toNat + 10)
    else if 'A' ≤ c ∧ c ≤ 'Z' then some (c.toNat - 'A'.toNat + 10)
    else none
  value.filter (· < base)

def digits (base : Nat) : List Char → List Nat
  | [] => []
  | c :: text => match digit base c with
    | some d => d :: digits base text
    | none => []

def sign : List Char → Bool × List Char
  | '-' :: text => (true, text)
  | '+' :: text => (false, text)
  | text => (false, text)

/-- `0x` counts only before a digit. -/
def hexDigits : List Char → List Char
  | '0' :: x :: d :: text =>
    if (x = 'x' ∨ x = 'X') ∧ (digit 16 d).isSome then d :: text else '0' :: x :: d :: text
  | text => text

/-- The sign and the absolute value of the numeral at the start of a text. -/
def numeral (base : Nat) (text : List Char) : Option (Bool × Nat) :=
  let (negative, rest) := sign (text.dropWhile isspace)
  match digits base (if base = 16 then hexDigits rest else rest) with
  | [] => none
  | ds => some (negative, ds.foldl (fun n d => base * n + d) 0)

def signed (negative : Bool) (n : Nat) : Int := if negative then -n else n

/-- The functions that throw. -/
inductive Malformed where
  | invalidArgument
  | outOfRange

def stol (base : Nat) (text : List Char) : Except Malformed Int :=
  match numeral base text with
  | none => .error .invalidArgument
  | some (negative, n) =>
    let v := signed negative n
    if -2 ^ 63 ≤ v ∧ v < 2 ^ 63 then .ok v else .error .outOfRange

def stoi (base : Nat) (text : List Char) : Except Malformed Int :=
  match numeral base text with
  | none => .error .invalidArgument
  | some (negative, n) =>
    let v := signed negative n
    if -2 ^ 31 ≤ v ∧ v < 2 ^ 31 then .ok v else .error .outOfRange

/-- A minus sign negates modulo 2^64. -/
def stoull (base : Nat) (text : List Char) : Except Malformed (BitVec 64) :=
  match numeral base text with
  | none => .error .invalidArgument
  | some (negative, n) =>
    if n < 2 ^ 64 then .ok (BitVec.ofInt 64 (signed negative n)) else .error .outOfRange

/-- `strtol` stops at the ends of `long`; the result is cut to an `int`. -/
def atoi (text : String) : Int :=
  match numeral 10 text.toList with
  | none => 0
  | some (negative, n) =>
    let v := signed negative n
    (if v < -2 ^ 63 then -2 ^ 63 else if 2 ^ 63 ≤ v then 2 ^ 63 - 1 else v).bmod (2 ^ 32)

/-- `strtoll`, whose result stops at the ends of `long long`. -/
def strtoll (base : Nat) (text : List Char) : BitVec 64 :=
  match numeral base text with
  | none => 0
  | some (negative, n) =>
    let v := signed negative n
    BitVec.ofInt 64 (if v < -2 ^ 63 then -2 ^ 63 else if 2 ^ 63 ≤ v then 2 ^ 63 - 1 else v)

end Numerals

section Spelling

/-- A digit of a smaller base is one of base 16. -/
theorem digit_eq_filter {base : Nat} (small : base ≤ 16) (c : Char) :
    digit base c = (digit 16 c).filter (· < base) := by
  have both : (fun d => decide (d < base)) = fun d => decide (d < 16) && decide (d < base) := by
    funext d
    rw [← Bool.decide_and]
    exact decide_eq_decide.mpr (by omega)
  unfold digit
  rw [Option.filter_filter, ← both]

theorem digit_digitChar {base d : Nat} (small : base ≤ 16) (h : d < base) :
    digit base (Nat.digitChar d) = some d := by
  have all : ∀ d : Fin 16, digit 16 (Nat.digitChar d) = some d.val := by decide
  rw [digit_eq_filter small, all ⟨d, by omega⟩, Option.filter_some, if_pos (by simpa using h)]

theorem digit_isSome_sixteen {base : Nat} (small : base ≤ 16) {c : Char} (h : (digit base c).isSome) :
    (digit 16 c).isSome := by
  rw [digit_eq_filter small] at h
  cases sixteen : digit 16 c with
  | none => rw [sixteen] at h; exact h
  | some d => rfl

/-- Nothing but digits, which spell a number. -/
structure Spells (base : Nat) (text : List Char) (n : Nat) : Prop where
  nonempty : text ≠ []
  length : (digits base text).length = text.length
  value : (digits base text).foldl (fun n d => base * n + d) 0 = n

theorem digits_append {base : Nat} {xs : List Char} (all : (digits base xs).length = xs.length)
    (ys : List Char) : digits base (xs ++ ys) = digits base xs ++ digits base ys := by
  induction xs with
  | nil => rfl
  | cons x xs ih =>
    rw [digits] at all
    rw [List.cons_append, digits, digits]
    cases here : digit base x with
    | none => simp [here] at all
    | some d =>
      rw [here] at all
      simp only [List.cons_append, List.cons.injEq, true_and]
      exact ih (by simpa using all)

theorem Spells.append {base n d : Nat} {xs : List Char} {y : Char} (h : Spells base xs n)
    (last : digit base y = some d) : Spells base (xs ++ [y]) (base * n + d) := by
  have one : digits base [y] = [d] := by rw [digits, last]; rfl
  refine ⟨by simp, ?_, ?_⟩
  · rw [digits_append h.length, one, List.length_append, List.length_append, h.length]
    rfl
  · rw [digits_append h.length, one, List.foldl_append, h.value]
    rfl

/-- The digits of a number in one base, read in the same or a larger one. -/
theorem spells_reread {b base : Nat} (low : 1 < b) (le : b ≤ base) (small : base ≤ 16) (n : Nat) :
    ∃ v, Spells base (Nat.toDigits b n) v ∧ n ≤ v ∧ (v = n ↔ b = base ∨ n < b) := by
  induction n using Nat.strongRecOn with
  | ind n ih =>
    by_cases one : n < b
    · rw [Nat.toDigits_of_lt_base one]
      have read : digits base [n.digitChar] = [n] := by
        rw [digits, digit_digitChar small (by omega)]
        rfl
      exact ⟨n, ⟨by simp, by rw [read]; rfl, by rw [read]; simp⟩, le_rfl, by simp [one]⟩
    · rw [Nat.toDigits_of_base_le low (by omega)]
      obtain ⟨v, spelled, least, exact_iff⟩ := ih (n / b) (Nat.div_lt_self (by omega) low)
      have last := digit_digitChar small ((Nat.mod_lt n (by omega)).trans_le le)
      have parts : b * (n / b) + n % b = n := Nat.div_add_mod n b
      have grows : b * (n / b) ≤ base * v := Nat.mul_le_mul le least
      refine ⟨base * v + n % b, spelled.append last, by omega, ?_⟩
      simp only [one, or_false]
      constructor
      · intro same
        by_contra other
        have positive : 0 < n / b := Nat.div_pos (by omega) (by omega)
        have more : b * (n / b) < base * (n / b) :=
          Nat.mul_lt_mul_of_pos_right (lt_of_le_of_ne le other) positive
        have most : base * (n / b) ≤ base * v := Nat.mul_le_mul_left base least
        omega
      · intro same
        rw [exact_iff.mpr (.inl same), ← same, parts]

theorem spells_toDigits {base : Nat} (low : 1 < base) (small : base ≤ 16) (n : Nat) :
    Spells base (Nat.toDigits base n) n := by
  obtain ⟨v, spelled, -, exact_iff⟩ := spells_reread low le_rfl small n
  rwa [exact_iff.mpr (.inl rfl)] at spelled

theorem spells_hex (n : Nat) : Spells 16 (Nat.toDigits 16 n) n :=
  spells_toDigits (by decide) le_rfl n

theorem toNat_of_digit {c : Char} (h : (digit 16 c).isSome) : 32 < c.toNat := by
  have low : ∀ k : Fin 33, (digit 16 (Char.ofNat k)).isSome = false := by decide
  by_contra small
  have blank := low ⟨c.toNat, by omega⟩
  rw [Char.ofNat_toNat, h] at blank
  cases blank

theorem Spells.digit {base n : Nat} {text : List Char} (h : Spells base text n) :
    ∀ c ∈ text, (digit base c).isSome := by
  have all := h.length
  clear h
  induction text with
  | nil => simp
  | cons x xs ih =>
    rw [digits] at all
    cases here : Text.digit base x with
    | none => simp [here] at all
    | some d =>
      rw [here] at all
      exact List.forall_mem_cons.mpr ⟨by rw [here]; rfl, ih (by simpa using all)⟩

theorem not_isspace_of_digit {c : Char} (h : (digit 16 c).isSome) : isspace c = false := by
  have high := toNat_of_digit h
  have other : c ≠ ' ' := by
    rintro rfl
    exact absurd high (by decide)
  simp only [isspace, other, false_or, decide_eq_false_iff_not]
  omega

theorem not_isspace_of_toDigits {base n : Nat} (low : 1 < base) (small : base ≤ 16) {c : Char}
    (inside : c ∈ Nat.toDigits base n) : isspace c = false :=
  not_isspace_of_digit (digit_isSome_sixteen small ((spells_toDigits low small n).digit c inside))

theorem sign_of_digit {c : Char} (h : (digit 16 c).isSome) (text : List Char) :
    sign (c :: text) = (false, c :: text) := by
  unfold sign
  split
  · next eq =>
    cases eq
    exact absurd h (by decide)
  · next eq =>
    cases eq
    exact absurd h (by decide)
  · rfl

/-- Between digits there is no `x`. -/
theorem hexDigits_of_digit {text : List Char} (h : ∀ c ∈ text, (digit 16 c).isSome) :
    hexDigits text = text := by
  unfold hexDigits
  split
  · next x d rest =>
    rw [if_neg]
    rintro ⟨rfl | rfl, _⟩
    · exact absurd (h 'x' (by simp)) (by decide)
    · exact absurd (h 'X' (by simp)) (by decide)
  · rfl

theorem hexDigits_prefix {c : Char} (h : (digit 16 c).isSome) (text : List Char) :
    hexDigits ('0' :: 'x' :: c :: text) = c :: text := by
  rw [hexDigits, if_pos ⟨.inl rfl, h⟩]

theorem numeral_of_digits (rest : List Char) {text : List Char} {n : Nat} {base : Nat} {negative : Bool}
    (signed : sign (text.dropWhile isspace) = (negative, rest))
    (h : Spells base (if base = 16 then hexDigits rest else rest) n) :
    numeral base text = some (negative, n) := by
  unfold numeral
  rw [signed]
  dsimp only
  split
  · next none =>
    have := h.length
    rw [none] at this
    exact absurd (List.length_eq_zero_iff.mp this.symm) h.nonempty
  · next ds _ =>
    rw [h.value]

/-- Digits are read back, -/
theorem numeral_of_spells {base : Nat} (small : base ≤ 16) {text : List Char} {n : Nat}
    (h : Spells base text n) : numeral base text = some (false, n) := by
  have hex : ∀ c ∈ text, (Text.digit 16 c).isSome :=
    fun c member => digit_isSome_sixteen small (h.digit c member)
  obtain ⟨c, rest, rfl⟩ := List.exists_cons_of_ne_nil h.nonempty
  have first := hex c List.mem_cons_self
  refine numeral_of_digits (c :: rest) ?_ ?_
  · rw [List.dropWhile_cons_of_neg (by rw [not_isspace_of_digit first]; decide), sign_of_digit first]
  · rwa [hexDigits_of_digit hex, ite_self]

/-- also behind a minus sign, -/
theorem numeral_minus {base : Nat} (small : base ≤ 16) {text : List Char} {n : Nat}
    (h : Spells base text n) : numeral base ('-' :: text) = some (true, n) := by
  have hex : ∀ c ∈ text, (Text.digit 16 c).isSome :=
    fun c member => digit_isSome_sixteen small (h.digit c member)
  refine numeral_of_digits text rfl ?_
  rwa [hexDigits_of_digit hex, ite_self]

/-- and also behind a prefix. -/
theorem numeral_prefix {text : List Char} {n : Nat} (h : Spells 16 text n) :
    numeral 16 ('0' :: 'x' :: text) = some (false, n) := by
  obtain ⟨c, rest, rfl⟩ := List.exists_cons_of_ne_nil h.nonempty
  have first := h.digit c List.mem_cons_self
  refine numeral_of_digits ('0' :: 'x' :: c :: rest) rfl ?_
  rw [if_pos rfl, hexDigits_prefix first]
  exact h

theorem toString_nat_inj {a b : Nat} : toString a = toString b ↔ a = b := by
  refine ⟨fun same => ?_, congrArg toString⟩
  have digits : Nat.toDigits 10 a = Nat.toDigits 10 b := by
    rw [← Nat.toList_repr, ← Nat.toString_eq_repr, same, Nat.toString_eq_repr, Nat.toList_repr]
  calc a = Nat.ofDigitChars 10 (Nat.toDigits 10 a) 0 := Nat.ofDigitChars_ten_toDigits.symm
    _ = Nat.ofDigitChars 10 (Nat.toDigits 10 b) 0 := by rw [digits]
    _ = b := Nat.ofDigitChars_ten_toDigits

end Spelling

end UnixProgramming.Text
