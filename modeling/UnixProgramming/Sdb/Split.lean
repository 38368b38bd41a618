import UnixProgramming.Sdb.Line

/-!
# The positions in `splitStr2Vec`

The loop keeps its positions in variables of type `int`, while `find_first_of` and `substr`
work with `size_t`: -1 stands for `npos`, and the length of the last piece is negative. As
long as the positions fit, the loop ends with the runs between the separators.
-/

namespace UnixProgramming.Sdb

open Text

section Model

/-- An `int` made from a `size_t`. -/
def toInt (n : BitVec 64) : Int := (n.setWidth 32).toInt

/-- A `size_t` made from an `int`. -/
def toSize (v : Int) : BitVec 64 := BitVec.ofInt 64 v

inductive SplitFault where
  /-- `substr` throws -/
  | outOfRange
  | overflow
  /-- the fuel is spent -/
  | running

/-- The result of an operation on `int`s. -/
def checked (v : Int) : Except SplitFault Int :=
  if -2 ^ 31 ≤ v ∧ v < 2 ^ 31 then .ok v else .error .overflow

/-- `find_first_of` with `npos` for nothing found. -/
def findPosition (splitSep s : List Char) (pos : BitVec 64) : BitVec 64 :=
  match findFirstOf splitSep s pos.toNat with
  | some next => BitVec.ofNat 64 next
  | none => -1

def substr (s : List Char) (pos n : BitVec 64) : Except SplitFault (List Char) :=
  if s.length < pos.toNat then .error .outOfRange else .ok ((s.drop pos.toNat).take n.toNat)

structure SplitState where
  current : Int
  next : Int
  result : List (List Char)

/-- One turn of the loop. -/
def splitTurn (splitSep s : List Char) (st : SplitState) : Except SplitFault SplitState := do
  let next := toInt (findPosition splitSep s (toSize st.current))
  let mut result := st.result
  if next ≠ st.current then
    let tmp ← substr s (toSize st.current) (toSize (← checked (next - st.current)))
    if ¬ tmp.isEmpty then
      result := result ++ [tmp]
  let current ← checked (next + 1)
  return ⟨current, next, result⟩

def splitLoop (splitSep s : List Char) : Nat → SplitState → Except SplitFault (List (List Char))
  | 0, st => if st.next ≠ -1 then .error .running else .ok st.result
  | n + 1, st =>
    if st.next ≠ -1 then do
      splitLoop splitSep s n (← splitTurn splitSep s st)
    else
      .ok st.result

end Model

section Turns

variable {splitSep s : List Char}

theorem toSize_natCast {n : Nat} (fits : n < 2 ^ 64) : (toSize n).toNat = n := by
  rw [toSize, BitVec.ofInt_natCast, BitVec.toNat_ofNat, Nat.mod_eq_of_lt fits]

theorem toInt_ofNat {n : Nat} (fits : n < 2 ^ 31) : toInt (BitVec.ofNat 64 n) = n := by
  rw [toInt, BitVec.toInt_eq_toNat_cond, BitVec.toNat_setWidth, BitVec.toNat_ofNat]
  omega

theorem toInt_npos : toInt (-1) = -1 := by decide

/-- The length of the last piece is more than what is left. -/
theorem take_toSize_neg {pos : Nat} (fits : s.length < 2 ^ 31) (inside : pos ≤ s.length) :
    (s.drop pos).take (toSize (-1 - pos)).toNat = s.drop pos := by
  apply List.take_of_length_le
  have wrapped : (toSize (-1 - pos)).toNat = 2 ^ 64 - 1 - pos := by
    rw [toSize, BitVec.toNat_ofInt]
    omega
  rw [wrapped, List.length_drop]
  omega

theorem append_unlessEmpty (result : List (List Char)) (tmp : List Char) :
    (if ¬ tmp.isEmpty then result ++ [tmp] else result) = result ++ unlessEmpty tmp := by
  cases tmp <;> simp [unlessEmpty]

theorem findPosition_none {pos : Nat} (fits : s.length < 2 ^ 31) (inside : pos ≤ s.length)
    (missing : findFirstOf splitSep s pos = none) : findPosition splitSep s (toSize pos) = -1 := by
  rw [findPosition, toSize_natCast (by omega), missing]

theorem findPosition_some {pos next : Nat} (fits : s.length < 2 ^ 31) (inside : pos ≤ s.length)
    (found : findFirstOf splitSep s pos = some next) :
    findPosition splitSep s (toSize pos) = BitVec.ofNat 64 next := by
  rw [findPosition, toSize_natCast (by omega), found]

theorem checked_of_fits {v : Int} (low : -2 ^ 31 ≤ v) (high : v < 2 ^ 31) : checked v = .ok v :=
  if_pos ⟨low, high⟩

theorem substr_of_le {pos : Nat} (fits : s.length < 2 ^ 31) (inside : pos ≤ s.length)
    (n : BitVec 64) : substr s (toSize pos) n = .ok ((s.drop pos).take n.toNat) := by
  rw [substr, toSize_natCast (by omega), if_neg (by omega)]

/-- Without a further separator the last piece is all that is left, and `current` is 0 again. -/
theorem splitTurn_none {pos : Nat} {last : Int} {result : List (List Char)}
    (fits : s.length < 2 ^ 31 - 1) (inside : pos ≤ s.length)
    (missing : findFirstOf splitSep s pos = none) :
    splitTurn splitSep s ⟨pos, last, result⟩ =
      .ok ⟨0, -1, result ++ runs (· ∈ splitSep) (s.drop pos)⟩ := by
  have other : (-1 : Int) ≠ pos := by omega
  have rest : runs (· ∈ splitSep) (s.drop pos) = unlessEmpty (s.drop pos) :=
    runs_of_inner (findFirstOf_none missing)
  have again : checked 0 = .ok 0 := rfl
  rw [rest, ← append_unlessEmpty, ← take_toSize_neg (by omega) inside, splitTurn]
  simp only [findPosition_none (by omega) inside missing, toInt_npos]
  rw [if_pos other, checked_of_fits (by omega) (by omega)]
  simp only [bind, Except.bind, substr_of_le (by omega) inside]
  split <;> simp [*, pure, Except.pure]

/-- A turn that finds a separator goes on behind it. -/
theorem splitTurn_some {pos next : Nat} {last : Int} {result : List (List Char)}
    (fits : s.length < 2 ^ 31 - 1) (inside : pos ≤ s.length)
    (found : findFirstOf splitSep s pos = some next) :
    splitTurn splitSep s ⟨pos, last, result⟩ =
      .ok ⟨(next + 1 : Nat), next, result ++ unlessEmpty ((s.drop pos).take (next - pos))⟩ := by
  have bounds := findFirstOf_bounds found
  have following : checked ((next : Int) + 1) = .ok ((next + 1 : Nat) : Int) :=
    checked_of_fits (by omega) (by omega)
  simp only [splitTurn, findPosition_some (by omega) inside found,
    toInt_ofNat (show next < 2 ^ 31 by omega), following]
  by_cases here : next = pos
  · subst here
    simp [unlessEmpty, bind, Except.bind, pure, Except.pure]
  · have apart : (next : Int) ≠ pos := by omega
    have length : checked ((next : Int) - pos) = .ok ((next - pos : Nat) : Int) := by
      rw [checked_of_fits (by omega) (by omega), Int.ofNat_sub bounds.1]
    rw [if_pos apart, length, ← append_unlessEmpty]
    simp only [bind, Except.bind, substr_of_le (by omega) inside,
      toSize_natCast (show next - pos < 2 ^ 64 by omega)]
    split <;> simp [*, pure, Except.pure]

end Turns

section Whole

variable {splitSep s : List Char}

theorem splitLoop_done (n : Nat) (current : Int) (result : List (List Char)) :
    splitLoop splitSep s n ⟨current, -1, result⟩ = .ok result := by
  cases n <;> rfl

/-- From a position on, the loop appends the runs of what is left. -/
theorem splitLoop_eq (fits : s.length < 2 ^ 31 - 1) {n : Nat} {last : Int}
    {result : List (List Char)} (running : last ≠ -1) {pos : Nat} (inside : pos ≤ s.length)
    (fuel : s.length - pos < n) :
    splitLoop splitSep s n ⟨pos, last, result⟩ =
      .ok (result ++ runs (· ∈ splitSep) (s.drop pos)) := by
  induction n generalizing pos last result with
  | zero => omega
  | succ n ih =>
    rw [splitLoop, if_pos running]
    cases found : findFirstOf splitSep s pos with
    | none =>
      rw [splitTurn_none fits inside found]
      exact splitLoop_done ..
    | some next =>
      obtain ⟨c, sep, parts, inner⟩ := findFirstOf_some found
      have bounds := findFirstOf_bounds found
      have cut : runs (· ∈ splitSep) (s.drop pos) =
          unlessEmpty ((s.drop pos).take (next - pos)) ++ runs (· ∈ splitSep) (s.drop (next + 1)) := by
        conv_lhs => rw [parts, runs_append_sep inner (by simpa using sep)]
      rw [splitTurn_some fits inside found]
      refine (ih (by omega) (by omega) (by omega)).trans ?_
      rw [cut, List.append_assoc]

/-- With at least as many turns as there are characters and one more, the loop ends without a
fault, with the runs of characters that are no separators, in their order. -/
theorem splitLoop_runs (fits : s.length < 2 ^ 31 - 1) {n : Nat}
    (fuel : s.length < n) :
    ∃ result, splitLoop splitSep s n ⟨0, 0, []⟩ = .ok result ∧
      result = (s.splitOnP (· ∈ splitSep)).filter (· ≠ []) ∧
      (∀ tmp ∈ result, tmp ≠ [] ∧ ∀ c ∈ tmp, c ∉ splitSep) ∧
      result.flatten = s.filter (· ∉ splitSep) ∧ result = splitStr2Vec s splitSep := by
  refine ⟨runs (· ∈ splitSep) s, ?_, runs_eq_splitOnP _ s, fun tmp listed => ⟨?_, ?_⟩, ?_, ?_⟩
  · exact splitLoop_eq fits (by decide) (Nat.zero_le _) (by omega)
  · exact ne_nil_of_mem_runs listed
  · intro c inside
    simpa using not_sep_of_mem_runs listed inside
  · simpa using flatten_runs (· ∈ splitSep) s
  · exact (splitStr2Vec_eq s splitSep).symm

theorem splitLoop_runs_blanks :
    ∃ result, splitLoop [' '] " x 1  ".toList 7 ⟨0, 0, []⟩ = .ok result ∧
      result = (" x 1  ".toList.splitOnP (· ∈ [' '])).filter (· ≠ []) ∧
      (∀ tmp ∈ result, tmp ≠ [] ∧ ∀ c ∈ tmp, c ∉ [' ']) ∧
      result.flatten = " x 1  ".toList.filter (· ∉ [' ']) ∧
      result = splitStr2Vec " x 1  ".toList [' '] :=
  splitLoop_runs (by decide) (by decide)

end Whole

end UnixProgramming.Sdb
