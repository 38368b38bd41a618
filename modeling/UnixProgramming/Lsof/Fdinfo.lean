import UnixProgramming.Lsof.Scan

/-!
# The mode of a descriptor

The access mode is the last octal digit in the line `flags:` of `/proc/pid/fdinfo/fd`.
`get_fd_type` does not look for this line but for words with `flags:` in them, and turns
every word behind one into a letter.
-/

namespace UnixProgramming.Lsof

open Text

section Format

inductive AccessMode where
  | readOnly
  | writeOnly
  | readWrite
  deriving DecidableEq

def AccessMode.bits : AccessMode → Nat
  | .readOnly => 0
  | .writeOnly => 1
  | .readWrite => 2

def AccessMode.letter : AccessMode → String
  | .readOnly => "r"
  | .writeOnly => "w"
  | .readWrite => "u"

/-- The flags of a descriptor with the lines before and after them; some kinds of files have
lines of their own. No other flag shares its octal digit with the access mode. -/
structure FdinfoFile where
  mode : AccessMode
  others : Nat
  before : List (List Char)
  after : List (List Char)
  oneLine : (∀ line ∈ before, newline ∉ line) ∧ ∀ line ∈ after, newline ∉ line

namespace FdinfoFile

variable (f : FdinfoFile)

def flags : Nat := 8 * f.others + f.mode.bits

def flagsLine : List Char := "flags:".toList ++ tab :: '0' :: Nat.toDigits 8 f.flags

def lines : List (List Char) := f.before ++ f.flagsLine :: f.after

def text : List Char := f.lines.flatMap (· ++ [newline])

end FdinfoFile

end Format

section Letters

/-- The word has `flags:` in it. -/
def NamesFlags (word : String) : Prop := "flags:".toList <:+: word.toList

instance (word : String) : Decidable (NamesFlags word) := inferInstanceAs (Decidable (_ <:+: _))

theorem drop_dropWhile_eq_nil {α : Type} {p : α → Bool} {xs : List α} :
    (xs.dropWhile p).drop 1 = [] ↔ ∀ x ∈ xs.dropLast, p x = true := by
  induction xs with
  | nil => simp
  | cons x xs ih =>
    by_cases here : p x = true
    · rw [List.dropWhile_cons_of_pos here, ih]
      cases xs with
      | nil => simp
      | cons y ys => simp [here]
    · rw [List.dropWhile_cons_of_neg here]
      cases xs with
      | nil => simp
      | cons y ys => simp [here]

theorem length_foldl_letters {letter : String → String} (one : ∀ word, (letter word).length = 1)
    (ws : List String) (start : String) :
    (ws.foldl (fun result word => result ++ letter word) start).length = start.length + ws.length := by
  induction ws generalizing start with
  | nil => rfl
  | cons word ws ih =>
    rw [List.foldl_cons, ih, String.length_append, one, List.length_cons]
    omega

theorem length_flagLetters (str : String) : (flagLetters str).length =
    (((words str).dropWhile fun word => ¬ "flags:".toList <:+: word.toList).drop 1).length := by
  rw [flagLetters, length_foldl_letters]
  · exact Nat.zero_add _
  · intro word
    split <;> rfl

/-- A line has letters if a word follows one with `flags:` in it. -/
theorem flagLetters_eq_empty {str : String} :
    flagLetters str = "" ↔ ∀ word ∈ (words str).dropLast, ¬ NamesFlags word := by
  rw [← String.length_eq_zero_iff, length_flagLetters, List.length_eq_zero_iff, drop_dropWhile_eq_nil]
  simp only [decide_eq_true_eq]
  exact Iff.rfl

end Letters

section Line

variable (f : FdinfoFile)

/-- The last digit is the one of the access mode. -/
theorem getLast?_toDigits_flags : (Nat.toDigits 8 f.flags).getLast? = some (Nat.digitChar f.mode.bits) := by
  have low : f.flags % 8 = f.mode.bits := by
    rw [FdinfoFile.flags, Nat.mul_add_mod]
    cases f.mode <;> rfl
  by_cases small : f.flags < 8
  · rw [Nat.toDigits_of_lt_base small, ← low, Nat.mod_eq_of_lt small]
    rfl
  · rw [Nat.toDigits_of_base_le (by decide) (by omega), low, List.getLast?_concat]

theorem words_flagsLine : words (String.ofList f.flagsLine) =
    ["flags:", String.ofList ('0' :: Nat.toDigits 8 f.flags)] := by
  have clear : ∀ c ∈ '0' :: Nat.toDigits 8 f.flags, isspace c = false := by
    intro c inside
    rcases List.mem_cons.mp inside with rfl | digit
    · decide
    · exact not_isspace_of_toDigits (by decide) (by decide) digit
  have label : ∀ c ∈ "flags:".toList, isspace c = false := by simp [isspace]
  have parts : f.flagsLine = "flags:".toList ++ tab :: '0' :: Nat.toDigits 8 f.flags := rfl
  rw [words, String.toList_ofList, parts, runs_word_append (by decide) label (by decide),
    runs_word (List.cons_ne_nil _ _) clear]
  rfl

theorem flagLetters_flagsLine : flagLetters (String.ofList f.flagsLine) = f.mode.letter := by
  have last : ('0' :: Nat.toDigits 8 f.flags).getLast? = some (Nat.digitChar f.mode.bits) := by
    rw [List.getLast?_cons, getLast?_toDigits_flags]
    rfl
  rw [flagLetters, words_flagsLine, List.dropWhile_cons_of_neg (by decide)]
  simp only [List.drop_succ_cons, List.drop_zero, List.foldl_cons, List.foldl_nil, String.toList_ofList,
    last]
  cases f.mode <;> rfl

end Line

section Result

variable (pos : String)

theorem getFdType_append (lines lines' : List String) : getFdType pos (some (lines ++ lines')) =
    getFdType (getFdType pos (some lines)) (some lines') := List.foldl_append

theorem getFdType_silent {lines : List String} (silent : ∀ str ∈ lines, flagLetters str = "") :
    getFdType pos (some lines) = pos := by
  induction lines with
  | nil => rfl
  | cons str lines ih =>
    rcases List.forall_mem_cons.mp silent with ⟨here, silent⟩
    have next : getFdType pos (some (str :: lines)) = getFdType (pos ++ flagLetters str) (some lines) := rfl
    rw [next, here, String.append_empty, ih silent]

/-- The letters that a list of lines adds. -/
theorem toList_getFdType (lines : List String) : (getFdType pos (some lines)).toList =
    pos.toList ++ lines.flatMap fun str => (flagLetters str).toList := by
  induction lines generalizing pos with
  | nil => exact (List.append_nil _).symm
  | cons str lines ih =>
    have next : getFdType pos (some (str :: lines)) = getFdType (pos ++ flagLetters str) (some lines) := rfl
    rw [next, ih, String.toList_append, List.append_assoc, List.flatMap_cons]

theorem getFdType_eq_iff (f : FdinfoFile) :
    getFdType pos (some (f.lines.map String.ofList)) = pos ++ f.mode.letter ↔
      ∀ line ∈ f.before ++ f.after, flagLetters (String.ofList line) = "" := by
  have own : getFdType pos (some [String.ofList f.flagsLine]) = pos ++ f.mode.letter := by
    rw [← flagLetters_flagsLine]
    rfl
  have parts : f.lines.map String.ofList = f.before.map String.ofList ++
      ([String.ofList f.flagsLine] ++ f.after.map String.ofList) := by
    rw [FdinfoFile.lines, List.map_append]
    rfl
  rw [parts, List.forall_mem_append]
  constructor
  · intro same
    have letters := congrArg String.toList same
    rw [toList_getFdType, String.toList_append, List.append_cancel_left_eq, List.flatMap_append,
      List.flatMap_append, List.flatMap_singleton, flagLetters_flagsLine] at letters
    have total := congrArg List.length letters
    rw [List.length_append, List.length_append] at total
    have silent {lines : List (List Char)}
        (none : ((lines.map String.ofList).flatMap fun str => (flagLetters str).toList).length = 0) :
        ∀ line ∈ lines, flagLetters (String.ofList line) = "" := by
      intro line listed
      rw [List.length_eq_zero_iff, List.flatMap_eq_nil_iff] at none
      exact String.toList_eq_nil_iff.mp (none _ (List.mem_map_of_mem listed))
    exact ⟨silent (by omega), silent (by omega)⟩
  · rintro ⟨before, after⟩
    have quiet {lines : List (List Char)} (silent : ∀ line ∈ lines, flagLetters (String.ofList line) = "") :
        ∀ str ∈ lines.map String.ofList, flagLetters str = "" := by
      intro str listed
      rcases List.mem_map.mp listed with ⟨line, member, rfl⟩
      exact silent line member
    rw [getFdType_append, getFdType_silent pos (quiet before), getFdType_append, own,
      getFdType_silent _ (quiet after)]

theorem FdinfoFile.newline_not_mem_flagsLine (f : FdinfoFile) : newline ∉ f.flagsLine := by
  intro member
  rcases List.mem_append.mp member with label | rest
  · exact absurd label (by decide)
  · have numeral : newline ∈ '0' :: Nat.toDigits 8 f.flags :=
      (List.mem_cons.mp rest).resolve_left (by decide)
    have digit : newline ∈ Nat.toDigits 8 f.flags := (List.mem_cons.mp numeral).resolve_left (by decide)
    exact absurd (not_isspace_of_toDigits (by decide) (by decide) digit) (by decide)

theorem FdinfoFile.fileLines_text (f : FdinfoFile) : fileLines f.text = f.lines.map String.ofList := by
  have inside : ∀ line ∈ f.lines, newline ∉ line := by
    rw [lines, List.forall_mem_append, List.forall_mem_cons]
    exact ⟨f.oneLine.1, f.newline_not_mem_flagsLine, f.oneLine.2⟩
  rw [fileLines, text, getlines_flatMap inside]

/-- `get_fd_type` appends the letter of the access mode, and nothing else, if and only if in no
other line a word follows one with `flags:` in it. -/
theorem getFdType_text_iff (f : FdinfoFile) :
    getFdType pos (some (fileLines f.text)) = pos ++ f.mode.letter ↔
      ∀ line ∈ f.before ++ f.after, ∀ word ∈ (words (String.ofList line)).dropLast, ¬ NamesFlags word := by
  rw [f.fileLines_text, getFdType_eq_iff]
  exact forall₂_congr fun line _ => flagLetters_eq_empty

/-- The descriptor of a timer, opened for reading and writing, whose clock is absolute. -/
def timer : FdinfoFile where
  mode := .readWrite
  others := 0
  before := ["pos:\t0".toList]
  after := ["mnt_id:\t15".toList, "clockid: 0".toList, "ticks: 0".toList, "settime flags: 01".toList]
  oneLine := by decide

theorem getFdType_timer : getFdType "3" (some (fileLines timer.text)) = "3uw" ∧
    getFdType "3" (some (fileLines timer.text)) ≠ "3" ++ timer.mode.letter := by
  have both : getFdType "3" (some (fileLines timer.text)) = "3uw" := by decide
  refine ⟨both, ?_⟩
  rw [both]
  decide

end Result

end UnixProgramming.Lsof
