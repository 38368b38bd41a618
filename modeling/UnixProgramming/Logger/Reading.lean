import UnixProgramming.Logger.Numeral
import UnixProgramming.Logger.Program

/-!
# Reading the log

Every line starts with the name of the function and ends with the result. As long as no
text of a call contains a newline, the log of a program tells its calls, one after the
other, and what the program was told. Only the item counts of `fread` and `fwrite` can be
larger than the `int` that is printed.
-/

namespace UnixProgramming.Logger

open Interaction Printf Text Transition

section Reader

/-- The name and the number of a line. -/
def readLine (line : List Char) : Option (List Char × Int) :=
  (readPrinted (line.reverse.takeWhile (· ≠ ' ')).reverse).map fun v =>
    ((line.drop 9).takeWhile (· ≠ '('), v)

/-- A line that begins and ends like those of the wrappers. -/
theorem readLine_framed {name number : List Char} (plain : '(' ∉ name) (solid : ' ' ∉ number)
    (middle : List Char) :
    readLine ("[logger] ".toList ++ (name ++ '(' :: (middle ++ ' ' :: number))) =
      (readPrinted number).map fun v => (name, v) := by
  have first : (("[logger] ".toList ++ (name ++ '(' :: (middle ++ ' ' :: number))).drop 9).takeWhile
      (· ≠ '(') = name := by
    change (name ++ '(' :: _).takeWhile (· ≠ '(') = name
    rw [List.takeWhile_append_of_pos]
    · simp
    · rintro c inside
      exact decide_eq_true fun same => plain (same ▸ inside)
  have last : ("[logger] ".toList ++ (name ++ '(' :: (middle ++ ' ' :: number))).reverse.takeWhile
      (· ≠ ' ') = number.reverse := by
    have behind : ("[logger] ".toList ++ (name ++ '(' :: (middle ++ ' ' :: number))).reverse =
        number.reverse ++ ' ' :: ("[logger] ".toList ++ (name ++ '(' :: middle)).reverse := by
      simp
    rw [behind, List.takeWhile_append_of_pos]
    · simp
    · rintro c inside
      exact decide_eq_true fun same => solid (same ▸ List.mem_reverse.mp inside)
  rw [readLine, first, last, List.reverse_reverse]

end Reader

namespace Call

/-- The conversion of the result. -/
def resultConversion (c : Call) : Char := if c.returns = .pointer then 'p' else 'd'

/-- The format between the name and the result. -/
def middle (c : Call) : List Directive :=
  ((directives c.format.toList).drop (c.real.symbol.toList.length + 10)).dropLast.dropLast.dropLast

/-- The number that is printed for the result. -/
def printed (libc : Libc) (c : Call) : Int :=
  if c.returns = .pointer then (BitVec.ofInt 64 (c.retval libc)).toNat
  else CType.int.convert (c.retval libc)

/-- The result of an item count fits an `int`. -/
def Fits (c : Call) (result : Int) : Prop :=
  match c with
  | .fread _ _ _ _ | .fwrite _ _ _ _ => result < 2 ^ 31
  | _ => True

end Call

section Lines

variable {lib : Library} {libc : Libc} {c : Call}

theorem directives_framed : directives c.format.toList =
    "[logger] ".toList.map .lit ++ (c.real.symbol.toList.map .lit ++ .lit '(' ::
      (c.middle ++ [.lit ' ', .conv c.resultConversion, .lit newline])) := by
  rw [Call.middle]
  cases c <;> rw [Call.format, Call.real] <;> dsimp only <;> rfl

theorem newline_not_mem_middle : .lit newline ∉ c.middle := by
  cases c <;> simp [Call.middle, Call.format, Call.real, directives, newline]

theorem symbol_plain : '(' ∉ c.real.symbol.toList ∧ newline ∉ c.real.symbol.toList := by
  cases c <;> simp [Call.real, newline]

theorem takes_middle (checked : List Char) : Takes c.middle
    (List.zipWith shown c.conversions.dropLast (c.varArgs lib checked).dropLast) := by
  rw [Call.middle]
  cases c <;> rw [Call.format, Call.real] <;> dsimp only <;> rfl

/-- The text that is printed for the result. -/
def Call.number (libc : Libc) (c : Call) : List Char :=
  shown c.resultConversion (.int (c.retval libc))

theorem readPrinted_number : readPrinted (c.number libc) = some (c.printed libc) := by
  by_cases pointer : c.returns = .pointer
  · rw [Call.number, Call.resultConversion, if_pos pointer, Call.printed, if_pos pointer]
    exact readPrinted_pointer _
  · rw [Call.number, Call.resultConversion, if_neg pointer, Call.printed, if_neg pointer, shown_d_int]
    exact readPrinted_decimal _

theorem not_mem_number {x : Char} (blank : isspace x = true) : x ∉ c.number libc := fun inside => by
  rw [isspace_shown_word inside] at blank
  cases blank

/-- The last text is the number. -/
theorem texts_framed (checked : List Char) : List.zipWith shown c.conversions (c.varArgs lib checked) =
    List.zipWith shown c.conversions.dropLast (c.varArgs lib checked).dropLast ++
      [c.number lib.toLibc] := by
  cases c <;> rfl

/-- No text of the call contains a newline. -/
def OneLine (lib : Library) (c : Call) : Prop :=
  ∀ checked, c.checked lib = some checked → ∀ text, .str text ∈ c.varArgs lib checked → newline ∉ text

/-- A line is a frame with the name and the number. -/
theorem line_framed {line : List Char} (written : c.line lib = some line) (clean : OneLine lib c) :
    ∃ middle, newline ∉ middle ∧ line = "[logger] ".toList ++ (c.real.symbol.toList ++
      '(' :: (middle ++ ' ' :: c.number lib.toLibc)) ++ [newline] := by
  rw [line_eq_fill, Call.fields] at written
  cases stored : c.checked lib with
  | none => simp [stored] at written
  | some checked =>
    rw [stored, Option.bind_some, fields_eq, Option.map_some, Option.some.injEq] at written
    refine ⟨fill c.middle (List.zipWith shown c.conversions.dropLast (c.varArgs lib checked).dropLast),
      fun inside => ?_, ?_⟩
    · rcases mem_fill inside with lit | ⟨text, listed, inside⟩
      · exact newline_not_mem_middle lit
      · rw [← List.map_uncurry_zip_eq_zipWith] at listed
        rcases List.mem_map.mp listed with ⟨⟨k, arg⟩, zipped, rfl⟩
        have passed := List.mem_of_mem_dropLast (List.of_mem_zip zipped).2
        cases arg with
        | word w => cases isspace_shown_word inside
        | str s => exact clean checked stored s passed (mem_shown_str inside)
    · rw [← written, directives_framed, texts_framed, fill_lits, fill_lits]
      change _ ++ (_ ++ '(' :: fill (c.middle ++ _) _) = _
      rw [fill_append (takes_middle checked)]
      simp [fill]

/-- The line, as it is read. -/
theorem readLine_line {line : List Char} (written : c.line lib = some line) (clean : OneLine lib c) :
    ∃ body, newline ∉ body ∧ line = body ++ [newline] ∧
      readLine body = some (c.real.symbol.toList, c.printed lib.toLibc) := by
  rcases line_framed written clean with ⟨middle, inner, rfl⟩
  have number : newline ∉ c.number lib.toLibc := not_mem_number rfl
  have first : newline ∉ ['[', 'l', 'o', 'g', 'g', 'e', 'r', ']', ' '] := by decide
  have others : newline ≠ '(' ∧ newline ≠ ' ' := by decide
  refine ⟨_, ?_, rfl, ?_⟩
  · rw [List.mem_append, List.mem_append, List.mem_cons, List.mem_append, List.mem_cons]
    simp only [number, inner, symbol_plain.2, others, or_false]
    exact first
  · rw [readLine_framed symbol_plain.1 (not_mem_number rfl), readPrinted_number]
    rfl

theorem int_in_ssize {x : Int} : -2 ^ 31 ≤ CType.ssize.convert (CType.int.convert x) ∧
    CType.ssize.convert (CType.int.convert x) < 2 ^ 31 := by
  simp only [CType.convert, Int.bmod_def]
  split_ifs <;> omega

theorem pointer_printed {x : Int} : ((BitVec.ofInt 64 (CType.pointer.convert x)).toNat : Int) =
    CType.pointer.convert (CType.pointer.convert x) := by
  rw [BitVec.toNat_ofInt]
  exact Int.toNat_of_nonneg (Int.emod_nonneg _ (by decide))

/-- The number is what the program was told if and only if the result fits. -/
theorem printed_eq_iff : c.printed libc = (wrapper c).passed (libc.real c.real).1 ↔
    c.Fits ((wrapper c).passed (libc.real c.real).1) := by
  cases c with
  | write fd buf count =>
    change CType.int.convert (CType.int.convert _) = CType.ssize.convert (CType.int.convert _) ↔ True
    exact iff_of_true (int_eq_ssize.mpr int_in_ssize) trivial
  | read fd buf count =>
    change CType.int.convert (CType.int.convert _) = CType.ssize.convert (CType.int.convert _) ↔ True
    exact iff_of_true (int_eq_ssize.mpr int_in_ssize) trivial
  | fread ptr size nmemb stream => exact int_eq_size
  | fwrite ptr size nitems stream => exact int_eq_size
  | fopen pathname mode => exact iff_of_true pointer_printed trivial
  | fopen64 pathname mode => exact iff_of_true pointer_printed trivial
  | tmpfile => exact iff_of_true pointer_printed trivial
  | tmpfile64 => exact iff_of_true pointer_printed trivial
  | _ => exact iff_of_true rfl trivial

end Lines

section Runs

variable {ω τ : Type} {W : World ω} {c : Call} {m m' : Monitored ω} {a : Answer}

/-- The line gets into the log, and is one line there. -/
structure Readable (lib : Library) (c : Call) : Prop where
  written : lib.writes
  clean : OneLine lib c

/-- A line that is read as the name and as some number, which is the result if that fits. -/
def ReadAs (ca : Call × Answer) (line : List Char) : Prop :=
  ∃ body v, newline ∉ body ∧ line = body ++ [newline] ∧
    readLine body = some (ca.1.real.symbol.toList, v) ∧ (v = ca.2.result ↔ ca.1.Fits ca.2.result)

/-- One call adds its line. -/
theorem monitored_line (readable : Readable (W.library m.world) c) (ran : W.monitored c m = some (a, m')) :
    ∃ line, m'.log = m.log ++ [line] ∧ ReadAs (c, a) line := by
  rcases monitored_eq_some.mp ran with ⟨-, line, printed, rfl, rfl⟩
  rcases readLine_line printed readable.clean with ⟨body, inner, rfl, read⟩
  refine ⟨body ++ [newline], ?_, body, _, inner, rfl, read, printed_eq_iff⟩
  rw [readable.written]
  rfl

end Runs

end UnixProgramming.Logger
