import UnixProgramming.Foundation.Getopt
import UnixProgramming.Sdb.History
import UnixProgramming.Sdb.Signals
import UnixProgramming.Sdb.Typed

/-!
# `main` of `sdb`

The command line names a program to load and scripts to read. The last script takes the
place of `stdin`, and then no prompts are printed; that is all the difference it makes
whether a text is typed in or read from a script.
-/

namespace UnixProgramming.Sdb

open Memory Transition Stateful Text Getopt

variable {κ : Type}

section Main

/-- The option string `"s:"`. -/
def takesArg (c : Char) : Option Bool := if c = 's' then some true else none

-- the contents of the files that `freopen` can open
variable (script : Word → Option (List Char))

/-- The loop over the options, with the text that `stdin` has and whether it is a script.
It ends the debugger at a script that cannot be opened, and gives nothing for `'?'`. -/
def takeOptions : List Item → List Char × Bool → Cmd κ (Option (List Char × Bool))
  | [], input => return some input
  | .option 's' (some optarg) :: items, _ =>
    match script optarg with
    | none => throw (.exit (-1))
    | some text => takeOptions items (text, true)
  | .option _ _ :: items, input => takeOptions items input
  | .invalid :: _, _ => return none

/-- What `main` returns, for the words after the program's name. -/
def main (host : Host κ) (n : Nat) (stdin : List Char) (argv : List Word) : Cmd κ Int := do
  match ← takeOptions script (scan takesArg none argv).1 (stdin, false) with
  | none =>
    help
    return -1
  | some (text, ifprint) =>
    prepare host ifprint ((scan takesArg none argv).2.head?.map String.ofList)
    mainLoop host ifprint n text
    return 0

end Main

section CommandLine

variable {script : Word → Option (List Char)} {args : List Argument} {cs : List Command}

/-- The scripts that the options name. -/
def scripts (args : List Argument) : List Word := args.filterMap fun arg =>
  match arg with
  | .plain _ => none
  | .separate _ optarg => some optarg
  | .joined _ a as => some (a :: as)

/-- The program to load. -/
def argProg (args : List Argument) : Option String :=
  (args.filterMap Argument.plain?).head?.map String.ofList

/-- What the loop reads, and whether it is a script. -/
def inputOf (script : Word → Option (List Char)) (files : List Word) (input : List Char × Bool) :
    List Char × Bool :=
  match files.getLast?.bind script with
  | none => input
  | some text => (text, true)

theorem inputOf_cons {file : Word} {files : List Word} {text : List Char} {input : List Char × Bool}
    (opened : ∀ f ∈ file :: files, (script f).isSome) (found : script file = some text) :
    inputOf script (file :: files) input = inputOf script files (text, true) := by
  unfold inputOf
  rw [List.getLast?_cons]
  cases last : files.getLast? with
  | none => simp [found]
  | some f =>
    have listed := opened f (List.mem_cons_of_mem _ (List.mem_of_getLast? last))
    rcases Option.isSome_iff_exists.mp listed with ⟨t, found'⟩
    simp [found']

theorem takeOptions_opened (valid : ∀ arg ∈ args, arg.Valid takesArg)
    (opened : ∀ file ∈ scripts args, (script file).isSome) (input : List Char × Bool) :
    takeOptions (κ := κ) script (args.filterMap Argument.item?) input =
      pure (some (inputOf script (scripts args) input)) := by
  induction args generalizing input with
  | nil => rfl
  | cons arg args ih =>
    rcases List.forall_mem_cons.mp valid with ⟨first, rest⟩
    have only {c : Char} (takes : takesArg c = some true) : c = 's' := by
      by_contra other
      rw [takesArg, if_neg other] at takes
      cases takes
    have script_case {file : Word} (files : scripts (arg :: args) = file :: scripts args) :
        takeOptions (κ := κ) script (.option 's' (some file) :: args.filterMap Argument.item?) input =
          pure (some (inputOf script (scripts (arg :: args)) input)) := by
      rw [files] at opened ⊢
      rcases Option.isSome_iff_exists.mp (opened file List.mem_cons_self) with ⟨text, found⟩
      rw [inputOf_cons opened found, ← ih rest fun f listed => opened f (List.mem_cons_of_mem _ listed)]
      simp only [takeOptions, found]
    cases arg with
    | plain w => exact ih rest opened input
    | separate c optarg =>
      obtain rfl := only first.2
      exact script_case rfl
    | joined c a as =>
      obtain rfl := only first.2
      exact script_case rfl

variable {host : Host κ} {n : Nat} {stdin : List Char}

/-- `main` for options and words in any order, with scripts that can all be opened. -/
theorem main_eq (valid : ∀ arg ∈ args, arg.Valid takesArg)
    (opened : ∀ file ∈ scripts args, (script file).isSome) :
    main script host n stdin (args.flatMap Argument.words) = do
      prepare host (inputOf script (scripts args) (stdin, false)).2 (argProg args)
      mainLoop host (inputOf script (scripts args) (stdin, false)).2 n
        (inputOf script (scripts args) (stdin, false)).1
      return 0 := by
  unfold main
  rw [scan_arguments valid, takeOptions_opened valid opened]
  rfl

theorem execAll_append (cs cs' : List Command) :
    execAll host n (cs ++ cs') = execAll host n cs >>= fun _ => execAll host n cs' := by
  induction cs with
  | nil => rfl
  | cons c cs ih =>
    rw [List.cons_append, execAll, execAll, ih, bind_assoc]

theorem prepare_quietly (prog : Option String) :
    prepare host true prog = execAll host n (prog.toList.map .load) := by
  cases prog with
  | none => rfl
  | some path => rfl

/-- Whatever the order of the options and words on the command line: with the lines of
commands as the last script, `main` loads the first word that is no option and does exactly
these commands, and `stdin` makes no difference. -/
theorem main_executes (valid : ∀ arg ∈ args, arg.Valid takesArg)
    (opened : ∀ file ∈ scripts args, (script file).isSome) {file : Word}
    (last : (scripts args).getLast? = some file) (text : script file = some (scriptOf cs))
    (typable : ∀ c ∈ cs, c.Typable) :
    main script host n stdin (args.flatMap Argument.words) = do
      execAll host n ((argProg args).toList.map .load ++ cs)
      return 0 := by
  have input : inputOf script (scripts args) (stdin, false) = (scriptOf cs, true) := by
    rw [inputOf, last, Option.bind_some, text]
  rw [main_eq valid opened, input, mainLoop_quietly typable, prepare_quietly (n := n),
    execAll_append, bind_assoc]

/-- Two scripts, the first of them empty, and the program between them. -/
theorem main_executes_fill :
    main (fun file => some (if file = ['b'] then scriptOf [.start, .break 0x401ffd, .cont] else []))
        (Sample.host fill) 40 [] [['-', 's'], ['a'], ['f', 'i', 'l', 'l'], ['-', 's', 'b']] = do
      execAll (Sample.host fill) 40 [.load "fill", .start, .break 0x401ffd, .cont]
      return 0 := by
  have typable : ∀ c ∈ [.start, .break 0x401ffd, .cont], Command.Typable c := by
    refine List.forall_mem_cons.mpr ⟨typable_of_operands_nil rfl, ?_⟩
    refine List.forall_mem_cons.mpr ⟨typable_addr (.inl rfl), ?_⟩
    exact List.forall_mem_singleton.mpr (typable_of_operands_nil rfl)
  exact @main_executes _ _ [.separate 's' ['a'], .plain ['f', 'i', 'l', 'l'], .joined 's' 'b' []] _ _
    _ _ (by decide) (fun _ _ => rfl) _ rfl rfl typable

end CommandLine

section Prompts

/-- The second log is the first one with `k` prompts in between. -/
inductive Prompted : Nat → List Effect → List Effect → Prop where
  | nil : Prompted 0 [] []
  | both {k l l'} (e : Effect) : Prompted k l l' → Prompted k (e :: l) (e :: l')
  | prompt {k l l'} : Prompted k l l' → Prompted (k + 1) l (.stderr "sdb> " :: l')

/-- The same end and the same requests, and what is printed differs in `k` prompts. -/
inductive Alike {α : Type} (k : Nat) : EStateM.Result Halt (World κ) α →
    EStateM.Result Halt (World κ) α → Prop where
  | ok {a w v} : SameButLog w v → Prompted k w.log v.log → Alike k (.ok a w) (.ok a v)
  | error {e w v} : SameButLog w v → Prompted k w.log v.log → Alike k (.error e w) (.error e v)

variable {α : Type} {k : Nat} {w v : World κ} {host : Host κ} {n : Nat}

theorem Prompted.refl (l : List Effect) : Prompted 0 l l := by
  induction l with
  | nil => exact .nil
  | cons e l ih => exact .both e ih

theorem Prompted.append {l l' : List Effect} (prompted : Prompted k l l') (added : List Effect) :
    Prompted k (added ++ l) (added ++ l') := by
  induction added with
  | nil => exact prompted
  | cons e added ih => exact .both e ih

/-- A program that does not read the log does not see the prompts in it. -/
theorem Alike.of_commutes {m : Cmd κ α} (blind : ∀ past, Commutes (World.after past) m)
    (same : SameButLog w v) (prompted : Prompted k w.log v.log) : Alike k (m w) (m v) := by
  have bare : ({ v with log := [] } : World κ) = { w with log := [] } := by rw [same]
  have here : m w = mapState (World.after w.log) (m { w with log := [] }) :=
    blind w.log { w with log := [] }
  have there : m v = mapState (World.after v.log) (m { w with log := [] }) := by
    rw [← bare]
    exact blind v.log { v with log := [] }
  rw [here, there]
  cases m { w with log := [] } with
  | ok a u => exact .ok rfl (prompted.append u.log)
  | error e u => exact .error rfl (prompted.append u.log)

/-- `m` without prompts and `m'` with at most `most` of them, and with all if they come back. -/
def Prompting (most : Nat) (m m' : Cmd κ α) : Prop :=
  ∀ k w v, SameButLog w v → Prompted k w.log v.log →
    ∃ j ≤ most, Alike (k + j) (m w) (m' v) ∧ ∀ a u, m w = .ok a u → j = most

theorem Prompting.of_commutes {m : Cmd κ α} (blind : ∀ past, Commutes (World.after past) m) :
    Prompting 0 m m :=
  fun _ _ _ same prompted => ⟨0, le_rfl, .of_commutes blind same prompted, fun _ _ _ => rfl⟩

theorem Prompting.prompt : Prompting (κ := κ) 1 (prompt true) (prompt false) :=
  fun _ _ v same prompted =>
    ⟨1, le_rfl, .ok (IsTrans.trans _ _ _ same (prompted_quiet false v)) (.prompt prompted), fun _ _ _ => rfl⟩

theorem Prompting.bind {β : Type} {most most' : Nat} {m m' : Cmd κ α} {f f' : α → Cmd κ β}
    (first : Prompting most m m') (second : ∀ a, Prompting most' (f a) (f' a)) :
    Prompting (most + most') (m >>= f) (m' >>= f') := by
  intro k w v same prompted
  rcases first k w v same prompted with ⟨j, few, alike, all⟩
  rw [bind_apply, bind_apply]
  cases ran : m w with
  | ok a w₁ =>
    rw [ran] at alike all
    generalize m' v = r at alike
    cases alike with
    | ok same₁ prompted₁ =>
      obtain rfl := all a w₁ rfl
      rcases second a _ _ _ same₁ prompted₁ with ⟨j', few', alike', all'⟩
      refine ⟨j + j', by omega, by rwa [← Nat.add_assoc], fun b u came => ?_⟩
      rw [all' b u came]
  | error e w₁ =>
    rw [ran] at alike
    generalize m' v = r at alike
    cases alike with
    | error same₁ prompted₁ =>
      exact ⟨j, by omega, .error same₁ prompted₁, fun _ _ came => by cases came⟩

theorem dispatch_commutes (past : List Effect) (cmd : List Char) (args : List (List Char)) :
    Commutes (World.after past) (dispatch host n cmd args) := by
  unfold dispatch
  split
  · exact exec_commutes _ _ _
  · exact stderr_commutes _
  · exact .throw _

/-- One prompt for each turn of the loop that comes back. -/
theorem mainLoop_prompting (text : List Char) :
    Prompting (turns text).length (mainLoop host true n text) (mainLoop host false n text) := by
  rw [mainLoop_eq, mainLoop_eq]
  have nonempty : ∀ turn ∈ turns text, turn ≠ .command [] := by
    rintro _ listed rfl
    rcases List.mem_filterMap.mp listed with ⟨piece, -, found⟩
    unfold turn? at found
    split_ifs at found with outside blank
    · cases found
    · exact blank (Turn.command.inj (Option.some.inj found))
  generalize turns text = ts at nonempty ⊢
  induction ts with
  | nil => exact .of_commutes fun _ => .pure _
  | cons turn rest ih =>
    rcases List.forall_mem_cons.mp nonempty with ⟨here, nonempty⟩
    have one : Prompting 1 (takeTurn host true n turn) (takeTurn host false n turn) := by
      cases turn with
      | outside => exact fun _ _ _ same prompted =>
          ⟨0, Nat.zero_le _, .error same prompted, fun _ _ came => by cases came⟩
      | command words =>
        cases words with
        | nil => exact absurd rfl here
        | cons cmd args =>
          exact Prompting.bind (.of_commutes fun past => dispatch_commutes past cmd args) fun _ =>
            .prompt
    rw [List.length_cons, Nat.add_comm]
    exact .bind one fun _ => ih nonempty

theorem prepare_prompting (prog : Option String) :
    Prompting 1 (prepare host true prog) (prepare host false prog) := by
  cases prog with
  | none => exact .prompt
  | some path =>
    exact Prompting.bind (.of_commutes fun past => load_commutes host path) fun _ => .prompt

variable {script : Word → Option (List Char)} {args typed : List Argument} {file : Word}
  {stdin text : List Char}

/-- A text does the same as a script and on `stdin`: the debugger comes to the same end with
the same requests, and prints the same but for a prompt before the loop and one for each
turn of the loop that comes back, all of them if the text is read to its end. -/
theorem main_prompting (valid : ∀ arg ∈ args, arg.Valid takesArg)
    (opened : ∀ file ∈ scripts args, (script file).isSome)
    (last : (scripts args).getLast? = some file) (found : script file = some text)
    (plain : ∀ arg ∈ typed, arg.Valid takesArg) (unscripted : scripts typed = [])
    (prog : argProg typed = argProg args) (w : World κ) :
    ∃ j ≤ (turns text).length + 1,
      Alike j (main script host n stdin (args.flatMap Argument.words) w)
        (main script host n text (typed.flatMap Argument.words) w) ∧
      ∀ r u, main script host n stdin (args.flatMap Argument.words) w = .ok r u →
        j = (turns text).length + 1 := by
  have input : inputOf script (scripts args) (stdin, false) = (text, true) := by
    rw [inputOf, last, Option.bind_some, found]
  have none_opened : ∀ file ∈ scripts typed, (script file).isSome := by
    rw [unscripted]
    exact List.forall_mem_nil _
  have input' : inputOf script (scripts typed) (text, false) = (text, false) := by
    rw [unscripted]
    rfl
  rw [main_eq valid opened, main_eq plain none_opened, input, input', prog]
  have first : Prompting 1 (prepare host true (argProg args)) (prepare host false (argProg args)) :=
    prepare_prompting _
  have loop : Prompting (turns text).length (mainLoop host true n text)
      (mainLoop host false n text) := mainLoop_prompting text
  have last : Prompting 0 (pure 0 : Cmd κ Int) (pure 0) := .of_commutes fun _ => .pure 0
  rcases first.bind (fun _ => loop.bind fun _ => last) 0 w w rfl (.refl _) with ⟨j, few, alike, all⟩
  rw [Nat.zero_add] at alike
  exact ⟨j, by omega, alike, fun r u came => by rw [all r u came]; omega⟩

/-- Two commands, the second of them `exit`, and a blank line. -/
def twoCommands : List Char :=
  ['s', 't', 'a', 'r', 't', newline, newline, 'e', 'x', 'i', 't', newline]

theorem main_prompting_fill : ∃ j ≤ 3, Alike j
    (main (fun _ => some twoCommands) (Sample.host fill) 40 [] [['-', 's', 'a'], ['f', 'i', 'l', 'l']]
      (World.init (Sample.host fill)))
    (main (fun _ => some twoCommands) (Sample.host fill) 40 twoCommands [['f', 'i', 'l', 'l']]
      (World.init (Sample.host fill))) := by
  have two : (turns twoCommands).length = 2 := by decide +kernel
  rcases @main_prompting _ (Sample.host fill) 40 (fun _ => some twoCommands)
    [.joined 's' 'a' [], .plain ['f', 'i', 'l', 'l']] [.plain ['f', 'i', 'l', 'l']] _ []
    twoCommands (by decide) (fun _ _ => rfl) rfl rfl (by decide) rfl rfl
    (World.init (Sample.host fill)) with ⟨j, few, alike, -⟩
  rw [two] at few
  exact ⟨j, few, alike⟩

end Prompts

section Ending

variable {host : Host κ} {script : Word → Option (List Char)} {R : World κ → World κ → Prop}
  [Std.Refl R] [IsTrans (World κ) R] {n : Nat}

omit [IsTrans (World κ) R] in
theorem Keeps.takeOptions (items : List Item) (input : List Char × Bool) :
    Within R (takeOptions (κ := κ) script items input) := by
  induction items generalizing input with
  | nil => exact .pure _
  | cons item items ih =>
    cases item with
    | invalid => exact .pure _
    | option c optarg =>
      unfold Sdb.takeOptions
      split
      · exact .pure _
      · next same =>
        cases same
        split
        · exact .throw _
        · exact ih _
      · next same =>
        cases same
        exact ih _
      · exact .pure _

omit [IsTrans (World κ) R] in
theorem Keeps.prompt (h : Keeps host R) (ifprint : Bool) : Within R (prompt ifprint) := by
  cases ifprint with
  | true => exact .pure _
  | false => exact h.stderr _

theorem Keeps.dispatch (h : Keeps host R) (cmd : List Char) (args : List (List Char)) :
    Within R (dispatch host n cmd args) := by
  unfold Sdb.dispatch
  split
  · exact h.exec _ _
  · exact h.stderr _
  · exact .throw _

theorem Keeps.mainLoop (h : Keeps host R) (ifprint : Bool) (text : List Char) :
    Within R (mainLoop host ifprint n text) := by
  rw [mainLoop_eq]
  induction turns text with
  | nil => exact .pure _
  | cons turn rest ih =>
    refine Within.bind ?_ fun _ => ih
    unfold takeTurn
    split
    · exact .pure _
    · exact .bind (h.dispatch _ _) fun _ => h.prompt _
    · exact .throw _

/-- What every operation keeps, `main` keeps, however it ends. -/
theorem Keeps.main (h : Keeps host R) (stdin : List Char) (argv : List Word) :
    Within R (main script host n stdin argv) := by
  refine .bind (Keeps.takeOptions _ _) fun input => ?_
  split
  · exact .bind h.help fun _ => .pure _
  · next text ifprint =>
    refine .bind ?_ fun _ => .bind (h.mainLoop _ _) fun _ => .pure _
    cases (scan takesArg none argv).2.head?.map String.ofList with
    | none => exact h.prompt _
    | some path => exact .bind (h.load _ _) fun _ => h.prompt _

/-- The debuggee, if there is one, was told to end with the debugger as soon as it was forked. -/
def Guarded (w : World κ) : Prop :=
  ∀ c, w.child = some c → [.ptrace c.pid .setOptions, .fork] <:+: w.log

/-- An operation leaves no other process behind than it has found, and adds to the log. -/
def Guards (w w' : World κ) : Prop := Guarded w → Guarded w'

instance : Std.Refl (Guards (κ := κ)) := ⟨fun _ h => h⟩

instance : IsTrans (World κ) Guards := ⟨fun _ _ _ first second h => second (first h)⟩

theorem Guarded.congr {w w' : World κ} (h : Guarded w)
    (child : ∀ c', w'.child = some c' → ∃ c, w.child = some c ∧ c'.pid = c.pid)
    (log : w.log <:+ w'.log) : Guarded w' := by
  intro c' alive
  rcases child c' alive with ⟨c, before, pid⟩
  rw [pid]
  exact (h c before).trans log.isInfix

theorem renews {w : World κ} {child : Option (Child κ)} {c c₁ : Child κ} (alive : w.child = some c)
    (after : child = some c₁) (pid : c₁.pid = c.pid) :
    ∀ c', child = some c' → ∃ c, w.child = some c ∧ c'.pid = c.pid := by
  rintro c' left
  obtain rfl := Option.some.inj (after.symm.trans left)
  exact ⟨c, alive, pid⟩

theorem emit_guards (e : Effect) : Within Guards (emit (κ := κ) e) :=
  .modify fun _ h => h.congr (fun c alive => ⟨c, alive, rfl⟩) (List.suffix_cons _ _)

theorem guards (host : Host κ) : Keeps host (Guards (κ := κ)) where
  stderr _ := emit_guards _
  peek _ _ := .bind (emit_guards _) fun _ => .bind .get fun _ => .pure _
  regs _ := .bind (emit_guards _) fun _ => .bind .get fun _ => .pure _
  own w w' child log h := h.congr (fun c alive => ⟨c, child ▸ alive, rfl⟩) (log ▸ List.suffix_rfl)
  poke pid addr word := by
    refine .bind (emit_guards _) fun _ w => ?_
    simp only [bind_apply, get_apply]
    cases found : w.stopped? pid with
    | none => exact Std.Refl.refl w
    | some c =>
      dsimp only
      cases poke c.tracee.mem addr word with
      | none => exact Std.Refl.refl w
      | some mem => exact fun h => h.congr (renews (stopped?_eq_some found).1 rfl rfl) List.suffix_rfl
  setRegs pid regs := by
    refine .bind (emit_guards _) fun _ w => ?_
    simp only [bind_apply, get_apply]
    cases found : w.stopped? pid with
    | none => exact Std.Refl.refl w
    | some c => exact fun h => h.congr (renews (stopped?_eq_some found).1 rfl rfl) List.suffix_rfl
  resume pid how := by
    refine .bind (emit_guards _) fun _ w => ?_
    simp only [bind_apply, get_apply]
    cases found : w.stopped? pid with
    | none => exact Std.Refl.refl w
    | some c => exact fun h => h.congr (renews (stopped?_eq_some found).1 rfl rfl) List.suffix_rfl
  wait n pid w := by
    simp only [waitpid, bind_apply, get_apply]
    cases alive : w.child with
    | none => exact Std.Refl.refl w
    | some c =>
      dsimp only
      split
      · exact Std.Refl.refl w
      · cases c.resumed with
        | none => exact Std.Refl.refl w
        | some how =>
          cases answer : c.prog.answer n how c.tracee with
          | none =>
            simp only [answer]
            exact Std.Refl.refl w
          | some e =>
            simp only [answer, bind_apply, modify_apply, pure_apply, final]
            refine fun h => h.congr (fun c' left => ?_) List.suffix_rfl
            rcases Option.map_eq_some_iff.mp left with ⟨t, -, rfl⟩
            exact ⟨c, alive, rfl⟩
  fork := emit_guards _
  born w pid prog _ _ _ c alive := by
    obtain rfl := Option.some.inj alive
    exact (List.prefix_append _ _).isInfix

/-- Whatever the command line and the text are, and however `main` ends, by `return`, by
`exit` anywhere in a command, by an assertion or a crash: a debuggee that there still is was
told to end with the debugger, right after its `fork`. -/
theorem main_guards (host : Host κ) (script : Word → Option (List Char)) (n : Nat)
    (stdin : List Char) (argv : List Word) :
    Guarded (final (main script host n stdin argv (World.init host))) :=
  (guards host).main stdin argv _ fun _ none => by cases none

end Ending

end UnixProgramming.Sdb
