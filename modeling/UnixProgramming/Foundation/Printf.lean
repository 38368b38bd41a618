import UnixProgramming.Foundation.Text

/-!
# `printf`

A format is text with conversions in it, each of which takes the next argument. An argument
fills a register, and it is the conversion that decides how many of its bits are printed,
with which sign and in which base.
-/

namespace UnixProgramming.Printf

open Text

section Formats

/-- A character of a format, or a conversion. -/
inductive Directive where
  | lit (c : Char)
  | conv (k : Char)
  deriving DecidableEq

def directives : List Char → List Directive
  | '%' :: k :: format => .conv k :: directives format
  | c :: format => .lit c :: directives format
  | [] => []

/-- What is passed behind the format. -/
inductive VarArg where
  | word (w : BitVec 64)
  | str (s : List Char)

/-- An `int` as it is passed. -/
def VarArg.int (v : Int) : VarArg := .word (BitVec.ofInt 64 v)

/-- An `unsigned int` as it is passed. -/
def VarArg.uint (w : BitVec 32) : VarArg := .word (w.setWidth 64)

def decimal (v : Int) : List Char :=
  if v < 0 then '-' :: Nat.toDigits 10 v.natAbs else Nat.toDigits 10 v.natAbs

def octal (n : Nat) : List Char := Nat.toDigits 8 n

def pointer (w : BitVec 64) : List Char :=
  if w = 0 then "(nil)".toList else '0' :: 'x' :: Nat.toDigits 16 w.toNat

/-- `d` and `o` print an argument of type `int`. A string does not become a number, nor a
number a string. -/
def convert : Char → VarArg → Option (List Char)
  | 's', .str s => some s
  | 'd', .word w => some (decimal (w.setWidth 32).toInt)
  | 'o', .word w => some (octal (w.setWidth 32).toNat)
  | 'p', .word w => some (pointer w)
  | _, _ => none

def printf : List Directive → List VarArg → Option (List Char)
  | [], _ => some []
  | .lit c :: format, args => (printf format args).map (c :: ·)
  | .conv k :: format, arg :: args =>
    (convert k arg).bind fun text => (printf format args).map (text ++ ·)
  | .conv _ :: _, [] => none

/-- The texts that the conversions print. -/
def fields : List Directive → List VarArg → Option (List (List Char))
  | [], _ => some []
  | .lit _ :: format, args => fields format args
  | .conv k :: format, arg :: args =>
    (convert k arg).bind fun text => (fields format args).map (text :: ·)
  | .conv _ :: _, [] => none

/-- A format with texts in the place of its conversions. -/
def fill : List Directive → List (List Char) → List Char
  | .lit c :: format, texts => c :: fill format texts
  | .conv _ :: format, text :: texts => text ++ fill format texts
  | _, _ => []

/-- What a conversion prints for an argument of its kind. -/
def shown (k : Char) (arg : VarArg) : List Char := (convert k arg).getD []

/-- What is printed is the format with its fields filled in. -/
theorem printf_eq_fill (format : List Directive) (args : List VarArg) :
    printf format args = (fields format args).map (fill format) := by
  induction format generalizing args with
  | nil => rfl
  | cons directive format ih =>
    cases directive with
    | lit c =>
      rw [printf, fields, ih, Option.map_map]
      rfl
    | conv k =>
      cases args with
      | nil => rfl
      | cons arg args =>
        rw [printf, fields]
        cases convert k arg with
        | none => rfl
        | some text =>
          rw [Option.bind_some, Option.bind_some, ih, Option.map_map, Option.map_map]
          rfl

/-- The format takes as many texts. -/
def Takes (format : List Directive) (texts : List (List Char)) : Prop :=
  (format.filter fun directive => directive matches .conv _).length = texts.length

theorem fill_append {format : List Directive} {texts : List (List Char)} (takes : Takes format texts)
    (format' : List Directive) (texts' : List (List Char)) :
    fill (format ++ format') (texts ++ texts') = fill format texts ++ fill format' texts' := by
  induction format generalizing texts with
  | nil =>
    rw [List.length_eq_zero_iff.mp takes.symm]
    rfl
  | cons directive format ih =>
    cases directive with
    | lit c => exact congrArg (c :: ·) (ih takes)
    | conv k =>
      cases texts with
      | nil => cases takes
      | cons text texts =>
        rw [List.cons_append, List.cons_append, fill, fill, ih (Nat.succ.inj takes), List.append_assoc]

theorem fill_lits (text : List Char) (format : List Directive) (texts : List (List Char)) :
    fill (text.map .lit ++ format) texts = text ++ fill format texts := by
  induction text with
  | nil => rfl
  | cons c text ih => exact congrArg (c :: ·) ih

/-- A character that is printed is one of the format or of a text. -/
theorem mem_fill {x : Char} {format : List Directive} {texts : List (List Char)}
    (printed : x ∈ fill format texts) : .lit x ∈ format ∨ ∃ text ∈ texts, x ∈ text := by
  induction format generalizing texts with
  | nil => cases texts <;> cases printed
  | cons directive format ih =>
    cases directive with
    | lit c =>
      rcases List.mem_cons.mp printed with rfl | later
      · exact .inl List.mem_cons_self
      · exact (ih later).imp_left (List.mem_cons_of_mem _)
    | conv k =>
      cases texts with
      | nil => cases printed
      | cons text texts =>
        rcases List.mem_append.mp printed with here | later
        · exact .inr ⟨text, List.mem_cons_self, here⟩
        · rcases ih later with lit | ⟨other, listed, inside⟩
          · exact .inl (List.mem_cons_of_mem _ lit)
          · exact .inr ⟨other, List.mem_cons_of_mem _ listed, inside⟩

end Formats

section Numbers

/-- The integer that a numeral stands for. -/
def readInt (base : Nat) (text : List Char) : Option Int :=
  (numeral base text).map fun (negative, n) => signed negative n

theorem readInt_digits {base : Nat} (low : 1 < base) (small : base ≤ 16) (n : Nat) :
    readInt base (Nat.toDigits base n) = some (n : Int) := by
  rw [readInt, numeral_of_spells small (spells_toDigits low small n)]
  rfl

theorem readInt_decimal (v : Int) : readInt 10 (decimal v) = some v := by
  by_cases negative : v < 0
  · have spelled := spells_toDigits (show 1 < 10 by decide) (by decide) v.natAbs
    rw [decimal, if_pos negative, readInt, numeral_minus (by decide) spelled]
    refine congrArg some ?_
    change -(v.natAbs : Int) = v
    omega
  · rw [decimal, if_neg negative, readInt_digits (by decide) (by decide)]
    exact congrArg some (Int.natAbs_of_nonneg (by omega))

theorem readInt_octal (n : Nat) : readInt 8 (octal n) = some (n : Int) :=
  readInt_digits (by decide) (by decide) n

/-- Octal digits stand for another decimal number as soon as there are two of them. -/
theorem readInt_octal_ten {n : Nat} : readInt 10 (octal n) = some (n : Int) ↔ n < 8 := by
  rcases spells_reread (show 1 < 8 by decide) (show 8 ≤ 10 by decide) (by decide) n with
    ⟨v, spelled, -, same_iff⟩
  rw [readInt, octal, numeral_of_spells (by decide) spelled]
  change some (v : Int) = _ ↔ _
  rw [Option.some.injEq, Nat.cast_inj, same_iff]
  exact or_iff_right (by decide)

theorem readInt_decimal_eq_iff {v w : Int} : readInt 10 (decimal v) = some w ↔ v = w := by
  rw [readInt_decimal, Option.some.injEq]

/-- A numeral has a sign and digits. -/
theorem mem_decimal {v : Int} {c : Char} (inside : c ∈ decimal v) : c = '-' ∨ (digit 10 c).isSome := by
  have digits := (spells_toDigits (show 1 < 10 by decide) (by decide) v.natAbs).digit c
  rw [decimal] at inside
  split at inside
  · exact (List.mem_cons.mp inside).imp_right digits
  · exact .inr (digits inside)

/-- The number that `%d` or `%p` has printed. -/
def readPrinted (text : List Char) : Option Int :=
  if text = "(nil)".toList then
    some 0
  else
    match text with
    | '0' :: 'x' :: digits => readInt 16 digits
    | _ => readInt 10 text

theorem readPrinted_decimal (v : Int) : readPrinted (decimal v) = some v := by
  have other {c : Char} (not : ¬ (c = '-' ∨ (digit 10 c).isSome)) : c ∉ decimal v :=
    fun inside => not (mem_decimal inside)
  have nil : decimal v ≠ "(nil)".toList := fun same => other (c := '(') (by decide) (same ▸ by decide)
  rw [readPrinted, if_neg nil]
  · exact readInt_decimal v
  · intro digits same
    exact other (c := 'x') (by decide) (same ▸ by simp)

theorem readPrinted_pointer (w : BitVec 64) : readPrinted (pointer w) = some (w.toNat : Int) := by
  rw [pointer]
  split
  · next zero =>
    rw [zero]
    rfl
  · exact readInt_digits (by decide) le_rfl w.toNat

end Numbers

section Words

theorem shown_o_uint (w : BitVec 32) : shown 'o' (.uint w) = octal w.toNat := by
  have low : (w.setWidth 64).setWidth 32 = w := by
    rw [BitVec.setWidth_setWidth_of_le _ (by decide), BitVec.setWidth_eq]
  change octal ((w.setWidth 64).setWidth 32).toNat = _
  rw [low]

theorem shown_d_word (w : BitVec 64) : shown 'd' (.word w) = decimal ((w.toNat : Int).bmod (2 ^ 32)) := by
  change decimal (w.setWidth 32).toInt = _
  rw [BitVec.toInt_setWidth]

theorem shown_d_int (v : Int) : shown 'd' (.int v) = decimal (v.bmod (2 ^ 32)) := by
  rw [VarArg.int, shown_d_word, BitVec.toNat_ofInt]
  refine congrArg decimal ?_
  rw [Int.bmod_def, Int.bmod_def]
  split_ifs <;> omega

theorem mem_shown_str {k x : Char} {s : List Char} (inside : x ∈ shown k (.str s)) : x ∈ s := by
  rw [shown] at inside
  unfold convert at inside
  split at inside
  · next same =>
    cases same
    exact inside
  · next same => cases same
  · next same => cases same
  · next same => cases same
  · cases inside

/-- A number is printed without blanks. -/
theorem isspace_shown_word {k : Char} {w : BitVec 64} {c : Char} (inside : c ∈ shown k (.word w)) :
    isspace c = false := by
  have sign : isspace '-' = false := rfl
  have digits {base n : Nat} (low : 1 < base) (small : base ≤ 16) (printed : c ∈ Nat.toDigits base n) :
      isspace c = false :=
    not_isspace_of_toDigits low small printed
  rw [shown] at inside
  unfold convert at inside
  split at inside
  · next same => cases same
  · next same =>
    rcases mem_decimal inside with rfl | digit
    · exact sign
    · exact not_isspace_of_digit (digit_isSome_sixteen (by decide) digit)
  · exact digits (by decide) (by decide) inside
  · next same =>
    rw [Option.getD_some, pointer] at inside
    split at inside
    · have nil : ∀ c ∈ ['(', 'n', 'i', 'l', ')'], isspace c = false := by simp [isspace]
      exact nil c inside
    · rcases List.mem_cons.mp inside with rfl | inside
      · rfl
      rcases List.mem_cons.mp inside with rfl | inside
      · rfl
      exact digits (by decide) le_rfl inside
  · cases inside

end Words

end UnixProgramming.Printf
