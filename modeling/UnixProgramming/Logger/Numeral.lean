import UnixProgramming.Logger.Line

/-!
# Numbers in the log

Modes and flags are printed in octal and other integers in decimal, so that a reader gets
the numbers back. The wrappers print byte counts as if they were of type `int`, and the
owner and the group of `chown` in octal.
-/

namespace UnixProgramming.Logger

open Printf

/-- What a field stands for: something that is no integer, or one in that base. -/
inductive Item where
  | text
  | number (base : Nat) (value : Int)

/-- The numeral in the field stands for the value. -/
def Item.ReadBack : Item → List Char → Prop
  | .text, _ => True
  | .number base value, field => readInt base field = some value

namespace Call

/-- The arguments and the result, by the rules for the output: octal for modes and flags and
decimal for other integers. -/
def items (libc : Libc) (c : Call) : List Item :=
  let result := Item.number 10 (c.result libc)
  match c with
  | .chmod _ mode | .creat _ mode | .creat64 _ mode => [.text, .number 8 mode.toNat, result]
  | .chown _ owner group => [.text, .number 10 owner.toNat, .number 10 group.toNat, result]
  | .remove _ | .close _ | .fclose _ => [.text, result]
  | .open _ flags mode | .open64 _ flags mode =>
    let mode := if OPEN_NEEDS_MODE flags then mode else 0
    [.text, .number 8 flags.toNat, .number 8 mode.toNat, result]
  | .rename _ _ => [.text, .text, result]
  | .write _ _ count | .read _ _ count => [.text, .text, .number 10 count.toNat, result]
  | .fread _ size nmemb _ => [.text, .number 10 size.toNat, .number 10 nmemb.toNat, .text, result]
  | .fwrite _ size nitems _ => [.text, .number 10 size.toNat, .number 10 nitems.toNat, .text, result]
  | .fopen _ _ | .fopen64 _ _ => [.text, .text, .text]
  | .tmpfile | .tmpfile64 => [.text]

/-- Each number of the call can be read off its field of the line. -/
def ReadsBack (lib : Library) (c : Call) : Prop :=
  ∃ fields, c.fields lib = some fields ∧ List.Forall₂ Item.ReadBack (c.items lib.toLibc) fields

/-- The result can be stored in an `int`. -/
def ResultFits (libc : Libc) (c : Call) : Prop :=
  match c.returns with
  | .ssize => -2 ^ 31 ≤ c.result libc ∧ c.result libc < 2 ^ 31
  | .size => c.result libc < 2 ^ 31
  | _ => True

/-- The ids have one octal digit, and counts and results fit an `int`. -/
def Legible (libc : Libc) (c : Call) : Prop :=
  match c with
  | .chown _ owner group => owner.toNat < 8 ∧ group.toNat < 8
  | .write _ _ count | .read _ _ count => count.toNat < 2 ^ 31 ∧ c.ResultFits libc
  | .fread _ size n _ | .fwrite _ size n _ =>
    size.toNat < 2 ^ 31 ∧ n.toNat < 2 ^ 31 ∧ c.ResultFits libc
  | _ => True

end Call

section Fields

variable {x : Int}

theorem readBack_octal (w : BitVec 32) : (Item.number 8 w.toNat).ReadBack (shown 'o' (.uint w)) := by
  rw [shown_o_uint]
  exact readInt_octal w.toNat

theorem readBack_id {w : BitVec 32} :
    (Item.number 10 w.toNat).ReadBack (shown 'o' (.uint w)) ↔ w.toNat < 8 := by
  rw [shown_o_uint]
  exact readInt_octal_ten

theorem readBack_count {w : BitVec 64} :
    (Item.number 10 w.toNat).ReadBack (shown 'd' (.word w)) ↔ w.toNat < 2 ^ 31 := by
  rw [shown_d_word, Item.ReadBack, readInt_decimal_eq_iff, Int.bmod_def]
  split_ifs <;> omega

theorem readBack_int {v w : Int} :
    (Item.number 10 w).ReadBack (shown 'd' (.int v)) ↔ CType.int.convert v = w := by
  rw [shown_d_int]
  exact readInt_decimal_eq_iff

theorem int_eq_ssize : CType.int.convert x = CType.ssize.convert x ↔
    -2 ^ 31 ≤ CType.ssize.convert x ∧ CType.ssize.convert x < 2 ^ 31 := by
  simp only [CType.convert, Int.bmod_def]
  split_ifs <;> omega

theorem int_eq_size :
    CType.int.convert x = CType.size.convert x ↔ CType.size.convert x < 2 ^ 31 := by
  simp only [CType.convert, Int.bmod_def]
  split_ifs <;> omega

theorem int_of_size : CType.int.convert (CType.size.convert x) = CType.int.convert x := by
  simp only [CType.convert, Int.bmod_def]
  split_ifs <;> omega

end Fields

section Results

variable {libc : Libc} {c : Call}

/-- The result can be read off its field. -/
def Call.ResultReadBack (libc : Libc) (c : Call) : Prop :=
  (Item.number 10 (c.result libc)).ReadBack (shown 'd' (.int (c.retval libc)))

theorem resultReadBack_iff (integer : c.returns ≠ .pointer) :
    c.ResultReadBack libc ↔ c.ResultFits libc := by
  rw [Call.ResultReadBack, readBack_int]
  cases c with
  | write fd buf count =>
    change CType.int.convert (CType.int.convert (CType.ssize.convert _)) = CType.ssize.convert _ ↔ _
    rw [CType.convert_convert, int_of_ssize]
    exact int_eq_ssize
  | read fd buf count =>
    change CType.int.convert (CType.int.convert (CType.int.convert _)) = CType.ssize.convert _ ↔ _
    rw [CType.convert_convert, CType.convert_convert]
    exact int_eq_ssize
  | fread ptr size nmemb stream =>
    change CType.int.convert (CType.size.convert (CType.size.convert _)) = CType.size.convert _ ↔ _
    rw [CType.convert_convert, int_of_size]
    exact int_eq_size
  | fwrite ptr size nitems stream =>
    change CType.int.convert (CType.int.convert (CType.int.convert _)) = CType.size.convert _ ↔ _
    rw [CType.convert_convert, CType.convert_convert]
    exact int_eq_size
  | fopen | fopen64 | tmpfile | tmpfile64 => exact absurd rfl integer
  | _ =>
    refine iff_of_true ?_ trivial
    exact (CType.convert_convert _ _).trans (CType.convert_convert _ _)

end Results

variable {lib : Library} {c : Call}

/-- The fields, one by one. -/
theorem forall₂_iff_legible (checked : List Char) :
    List.Forall₂ Item.ReadBack (c.items lib.toLibc)
      (List.zipWith shown c.conversions (c.varArgs lib checked)) ↔ c.Legible lib.toLibc := by
  have text (field : List Char) : Item.text.ReadBack field := trivial
  cases c <;> simp only [Call.items, Call.conversions, Call.varArgs, List.zipWith,
    List.forall₂_cons, text, readBack_octal, readBack_id, readBack_count, true_and]
  case chown pathname owner group =>
    exact ⟨fun h => ⟨h.1, h.2.1⟩,
      fun h => ⟨h.1, h.2, (resultReadBack_iff (by nofun)).mpr trivial, .nil⟩⟩
  case write | read =>
    exact ⟨fun h => ⟨h.1, (resultReadBack_iff (by nofun)).mp h.2.1⟩,
      fun h => ⟨h.1, (resultReadBack_iff (by nofun)).mpr h.2, .nil⟩⟩
  case fread | fwrite =>
    exact ⟨fun h => ⟨h.1, h.2.1, (resultReadBack_iff (by nofun)).mp h.2.2.1⟩,
      fun h => ⟨h.1, h.2.1, (resultReadBack_iff (by nofun)).mpr h.2.2, .nil⟩⟩
  case fopen | fopen64 | tmpfile | tmpfile64 => exact iff_of_true .nil trivial
  all_goals exact iff_of_true ⟨(resultReadBack_iff (by nofun)).mpr trivial, .nil⟩ trivial

/-- The numbers of a call can be read back from its line if and only if its byte counts and
its result fit an `int` and, for `chown`, the ids are below 8. -/
theorem readsBack_iff (lib : Library) (c : Call) (loggable : Loggable lib.toLibc c) :
    c.ReadsBack lib ↔ c.Legible lib.toLibc := by
  rcases Option.isSome_iff_exists.mp (checked_isSome loggable) with ⟨checked, stored⟩
  rw [Call.ReadsBack, Call.fields, stored, Option.bind_some, fields_eq, ← forall₂_iff_legible checked]
  simp

theorem readsBack_iff_write : (Call.write 1 0x1000 1000000).ReadsBack (quiet 1000000 none) := by
  refine (readsBack_iff _ _ ⟨rfl, ?_, ?_⟩).mpr ⟨by decide, by decide, by decide⟩
  · simp [wrapper, write, Helper.Safe]
  · simp [wrapper, write, Wrapper.ending, Helper.Safe, checkbuf, quiet, calm]

/-- The owner 1000 is printed as 1750. -/
theorem chown_prints_octal :
    (Call.chown "/a" 1000 0).line (quiet 0 none) =
        some "[logger] chown(\"/a\", 1750, 0) = 0\n".toList ∧
      ¬ (Call.chown "/a" 1000 0).ReadsBack (quiet 0 none) := by
  refine ⟨rfl, ?_⟩
  rintro ⟨fields, printed, read⟩
  cases printed
  rcases read with _ | ⟨-, _ | ⟨owner, -⟩⟩
  exact absurd (readBack_id.mp owner) (by decide)

end UnixProgramming.Logger
