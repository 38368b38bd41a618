import Mathlib.Data.Option.Basic
import UnixProgramming.Foundation.Getopt

/-!
# The launcher's command line

The launcher takes its options `-o` and `-p` with `getopt` and runs what is left. As the
option string lets `getopt` permute the words, the options of the command count as the
launcher's own unless `--` stands before it.
-/

namespace UnixProgramming.Logger

open Getopt

section Main

/-- The option string `"o:p:"`. -/
def takesArg (c : Char) : Option Bool := if c = 'o' ∨ c = 'p' then some true else none

structure Settings where
  argFile : Word
  argSopath : Word
  deriving DecidableEq

def Settings.default : Settings := ⟨[], "./logger.so".toList⟩

/-- How the launcher ends: with a message and -1, or in `execvp`. -/
inductive Ending where
  | usage
  | noCommand
  | execvp (file : Word) (execarg : List (Option Word)) (settings : Settings)
  deriving DecidableEq

/-- The loop over the options; nothing for `'?'`. -/
def takeOptions : Settings → List Item → Option Settings
  | settings, [] => some settings
  | settings, .option 'o' (some optarg) :: items => takeOptions { settings with argFile := optarg } items
  | settings, .option 'p' (some optarg) :: items => takeOptions { settings with argSopath := optarg } items
  | settings, .option _ _ :: items => takeOptions settings items
  | _, .invalid :: _ => none

/-- `main`, of the words after the program's name. -/
def main (words : List Word) : Ending :=
  match takeOptions .default (scan takesArg none words).1, (scan takesArg none words).2 with
  | none, _ => .usage
  | some _, [] => .noCommand
  | some settings, command :: args =>
    .execvp command (some command :: args.map some ++ [none]) settings

end Main

section CommandLine

/-- An option of the launcher as it may be written. -/
inductive LoggerOption where
  | o (file : Word)
  | oJoined (a : Char) (as : Word)
  | p (sopath : Word)
  | pJoined (a : Char) (as : Word)

namespace LoggerOption

def words : LoggerOption → List Word
  | .o file => [['-', 'o'], file]
  | .oJoined a as => ['-' :: 'o' :: a :: as]
  | .p sopath => [['-', 'p'], sopath]
  | .pJoined a as => ['-' :: 'p' :: a :: as]

def set (settings : Settings) : LoggerOption → Settings
  | .o file => { settings with argFile := file }
  | .oJoined a as => { settings with argFile := a :: as }
  | .p sopath => { settings with argSopath := sopath }
  | .pJoined a as => { settings with argSopath := a :: as }

def item : LoggerOption → Item
  | .o file => .option 'o' (some file)
  | .oJoined a as => .option 'o' (some (a :: as))
  | .p sopath => .option 'p' (some sopath)
  | .pJoined a as => .option 'p' (some (a :: as))

end LoggerOption

/-- Options, a separator or none, and a command with its words. Without the separator a
word like an option is no command. -/
structure CommandLine where
  options : List LoggerOption
  separator : Bool
  command : Word
  args : List Word
  isCommand : separator = false → ¬ OptionLike command

namespace CommandLine

def words (line : CommandLine) : List Word :=
  line.options.flatMap LoggerOption.words ++
    (if line.separator then [['-', '-']] else []) ++ line.command :: line.args

/-- What the options before the command say. -/
def settings (line : CommandLine) : Settings := line.options.foldl LoggerOption.set .default

/-- The launcher runs the command with its own words. -/
def Untouched (line : CommandLine) : Prop :=
  main line.words =
    .execvp line.command (some line.command :: line.args.map some ++ [none]) line.settings

end CommandLine

theorem scan_words (option : LoggerOption) (ws : List Word) :
    scan takesArg none (option.words ++ ws) =
      (option.item :: (scan takesArg none ws).1, (scan takesArg none ws).2) := by
  cases option with
  | o file => exact scan_separate rfl (by decide)
  | oJoined a as => exact scan_joined rfl (by decide)
  | p sopath => exact scan_separate rfl (by decide)
  | pJoined a as => exact scan_joined rfl (by decide)

theorem scan_options (options : List LoggerOption) (ws : List Word) :
    scan takesArg none (options.flatMap LoggerOption.words ++ ws) =
      (options.map LoggerOption.item ++ (scan takesArg none ws).1, (scan takesArg none ws).2) := by
  induction options with
  | nil => rfl
  | cons option options ih =>
    rw [List.flatMap_cons, List.append_assoc, scan_words, ih]
    rfl

theorem takeOptions_append (options : List LoggerOption) (settings : Settings) (items : List Item) :
    takeOptions settings (options.map LoggerOption.item ++ items) =
      takeOptions (options.foldl LoggerOption.set settings) items := by
  induction options generalizing settings with
  | nil => rfl
  | cons option options ih =>
    rw [List.map_cons, List.cons_append, List.foldl_cons, ← ih]
    cases option <;> rfl

theorem execarg_inj {command command' : Word} {args args' : List Word} :
    some command :: args.map some ++ [none] = some command' :: args'.map some ++ [none] ↔
      command :: args = command' :: args' := by
  have injective : Function.Injective (List.map (some : Word → Option Word)) :=
    List.map_injective_iff.mpr (Option.some_injective _)
  rw [← List.map_cons, ← List.map_cons, List.append_left_inj, injective.eq_iff]

/-- What `main` runs, by what the scan finds behind the options. -/
theorem main_options (options : List LoggerOption) (ws : List Word) (command : Word)
    (args : List Word) :
    main (options.flatMap LoggerOption.words ++ ws) = .execvp command
        (some command :: args.map some ++ [none]) (options.foldl LoggerOption.set .default) ↔
      takeOptions (options.foldl LoggerOption.set .default) (scan takesArg none ws).1 =
          some (options.foldl LoggerOption.set .default) ∧
        (scan takesArg none ws).2 = command :: args := by
  rw [main, scan_options, takeOptions_append]
  cases taken : takeOptions (options.foldl LoggerOption.set .default) (scan takesArg none ws).1 with
  | none => simp
  | some settings =>
    cases (scan takesArg none ws).2 with
    | nil => simp
    | cons command' args' =>
      rw [← execarg_inj]
      simp only [Ending.execvp.injEq, Option.some.injEq]
      constructor
      · rintro ⟨_, execarg, same⟩
        exact ⟨same, execarg⟩
      · rintro ⟨same, execarg⟩
        exact ⟨(List.cons.inj (execarg_inj.mp execarg)).1, execarg, same⟩

/-- The command gets its words as they are if and only if `--` stands before it or none of
them looks like an option. -/
theorem untouched_iff (line : CommandLine) :
    line.Untouched ↔ line.separator = true ∨ ∀ w ∈ line.args, ¬ OptionLike w := by
  obtain ⟨options, separator, command, args, isCommand⟩ := line
  rw [CommandLine.Untouched, CommandLine.words, CommandLine.settings, List.append_assoc,
    main_options]
  cases separator with
  | true =>
    change takeOptions _ (scan takesArg none (['-', '-'] :: command :: args)).1 = _ ∧
      (scan takesArg none (['-', '-'] :: command :: args)).2 = _ ↔ _
    rw [scan_separator]
    simp [takeOptions]
  | false =>
    have plain : ¬ OptionLike command := isCommand rfl
    change takeOptions _ (scan takesArg none (command :: args)).1 = _ ∧
      (scan takesArg none (command :: args)).2 = _ ↔ _
    rw [scan_cons_plain plain]
    constructor
    · rintro ⟨_, kept⟩
      exact .inr (plain_of_scan_length (congrArg List.length (List.cons.inj kept).2))
    · rintro (separated | allPlain)
      · cases separated
      · rw [scan_plain allPlain]
        exact ⟨by simp [takeOptions], rfl⟩

/-- `logger ls -l`: the launcher takes `-l` for an option of its own. -/
theorem ls_not_untouched :
    main ["ls".toList, "-l".toList] = .usage ∧
      ¬ (CommandLine.mk [] false "ls".toList ["-l".toList] fun _ => by decide).Untouched := by
  refine ⟨by decide, ?_⟩
  intro untouched
  cases untouched

end CommandLine

end UnixProgramming.Logger
