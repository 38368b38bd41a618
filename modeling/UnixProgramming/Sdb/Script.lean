import UnixProgramming.Sdb.Input

/-!
# The lines of a script

What the loop of `main` makes of a text, and the commands that its lines are. The two agree
unless a line has words in more than one of the pieces in which `fgets` reads it, or the
text has a NUL.
-/

namespace UnixProgramming.Sdb

open Stateful Text

variable {κ : Type}

section Turns

/-- What one turn of the loop does after reading: it dispatches words, or uses
`line[strlen(line)-1]` in front of the buffer. -/
inductive Turn where
  | command (words : List (List Char))
  | outside

def turn? (piece : List Char) : Option Turn :=
  if (upToNul piece).isEmpty then some .outside
  else if wordsOf piece = [] then none
  else some (.command (wordsOf piece))

/-- The turns of the loop on a text that do not end at `continue`. -/
def turns (text : List Char) : List Turn := (fgets 1024 text).filterMap turn?

def takeTurn (host : Host κ) (ifprint : Bool) (n : Nat) : Turn → Cmd κ Unit
  | .command [] => pure ()
  | .command (cmd :: args) => do
    dispatch host n cmd args
    prompt ifprint
  | .outside => throw .outOfBounds

/-- The loop of `main` on a text. -/
def mainLoop (host : Host κ) (ifprint : Bool) (n : Nat) (text : List Char) : Cmd κ Unit :=
  (fgets 1024 text).forM (readPiece host ifprint n)

/-- The commands that a text stands for: the words of each of its lines that has any. -/
def commands (text : List Char) : List (List (List Char)) :=
  ((text.splitOn newline).map (runs (· = ' '))).filter (· ≠ [])

variable {host : Host κ} {ifprint : Bool} {n : Nat}

theorem readPiece_eq (piece : List Char) : readPiece host ifprint n piece =
    match turn? piece with
    | none => pure ()
    | some turn => takeTurn host ifprint n turn := by
  unfold readPiece turn?
  by_cases empty : (upToNul piece).isEmpty = true
  · simp only [empty, if_true, takeTurn]
  · simp only [empty, Bool.false_eq_true, if_false]
    cases found : wordsOf piece with
    | nil => rfl
    | cons cmd args => rfl

/-- The loop takes its turns one after the other. -/
theorem mainLoop_eq (text : List Char) :
    mainLoop host ifprint n text = (turns text).forM (takeTurn host ifprint n) := by
  unfold mainLoop turns
  induction fgets 1024 text with
  | nil => rfl
  | cons piece rest ih =>
    change (readPiece host ifprint n piece >>= fun _ => rest.forM (readPiece host ifprint n)) = _
    rw [ih, readPiece_eq]
    cases found : turn? piece with
    | none => rw [List.filterMap_cons_none found, pure_bind]
    | some turn => rw [List.filterMap_cons_some found]; rfl

end Turns

section Lines

/-- Lists that are put together from parts, the first from parts that are no shorter. -/
theorem flatMap_eq_iff {α β : Type} {f g : α → List β} {xs : List α}
    (longer : ∀ x ∈ xs, (g x).length ≤ (f x).length) :
    xs.flatMap f = xs.flatMap g ↔ ∀ x ∈ xs, f x = g x := by
  refine ⟨fun same => ?_, fun parts => List.flatMap_congr parts⟩
  induction xs with
  | nil => simp
  | cons x xs ih =>
    obtain ⟨here, longer⟩ := List.forall_mem_cons.mp longer
    have total (ys : List α) (longer : ∀ y ∈ ys, (g y).length ≤ (f y).length) :
        (ys.flatMap g).length ≤ (ys.flatMap f).length := by
      induction ys with
      | nil => exact le_rfl
      | cons y ys ih =>
        obtain ⟨here, longer⟩ := List.forall_mem_cons.mp longer
        simpa using Nat.add_le_add here (ih longer)
    rw [List.flatMap_cons, List.flatMap_cons] at same
    have lengths := congrArg List.length same
    rw [List.length_append, List.length_append] at lengths
    have rest := total xs longer
    obtain ⟨first, others⟩ := List.append_inj same (by omega)
    exact List.forall_mem_cons.mpr ⟨first, ih longer others⟩

/-- The words that the loop dispatches for a text without NUL. -/
def dispatched (pieces : List (List Char)) : List (List (List Char)) :=
  (pieces.map wordsOf).filter (· ≠ [])

theorem turns_eq {text : List Char} (clean : nul ∉ text) :
    turns text = (dispatched (fgets 1024 text)).map .command := by
  have within : ∀ piece ∈ fgets 1024 text, piece ≠ [] ∧ nul ∉ piece := by
    intro piece listed
    refine ⟨pieces_ne_nil piece listed, fun inside => clean ?_⟩
    rw [← pieces_flatten 1022 1022 text]
    exact List.mem_flatten_of_mem listed inside
  unfold turns dispatched
  generalize fgets 1024 text = pieces at within ⊢
  induction pieces with
  | nil => rfl
  | cons piece rest ih =>
    obtain ⟨⟨nonempty, clean⟩, within⟩ := List.forall_mem_cons.mp within
    have inBuffer : (upToNul piece).isEmpty = false := by
      rw [upToNul_eq_self clean]
      simpa using nonempty
    by_cases blank : wordsOf piece = []
    · rw [List.filterMap_cons_none (by simp [turn?, inBuffer, blank]), ih within, List.map_cons,
        List.filter_cons_of_neg (by simpa using blank)]
    · rw [List.filterMap_cons_some (b := .command (wordsOf piece)) (by simp [turn?, inBuffer, blank]),
        ih within, List.map_cons, List.filter_cons_of_pos (by simpa using blank), List.map_cons]

theorem wordsOf_eq {piece : List Char} (clean : nul ∉ piece) :
    wordsOf piece = runs (· = ' ') (chomp piece) := by
  have same : (fun c => decide (c ∈ [' '])) = (fun c => decide (c = ' ')) := by simp
  rw [wordsOf, splitStr2Vec_eq, upToNul_eq_self clean, same]

theorem chomp_eq_self {piece : List Char} (inside : newline ∉ piece) : chomp piece = piece := by
  rw [chomp, if_neg]
  exact fun last => inside (List.mem_of_getLast? last)

/-- The newline behind a line is part of its last piece or a piece of its own. -/
theorem pieces_line (size room : Nat) {line : List Char} (inside : newline ∉ line) :
    ∃ tail, (tail = [] ∨ tail = [[]]) ∧
      (pieces size room (line ++ [newline])).map chomp = pieces size room line ++ tail := by
  induction line generalizing room with
  | nil => exact ⟨[[]], .inr rfl, by simp [pieces, chomp]⟩
  | cons c line ih =>
    have other : newline ≠ c := List.ne_of_not_mem_cons inside
    have inside : newline ∉ line := List.not_mem_of_not_mem_cons inside
    rw [List.cons_append, pieces, pieces]
    by_cases full : room = 0
    · obtain ⟨tail, short, same⟩ := ih size inside
      have whole : chomp [c] = [c] := chomp_eq_self (by simpa using other)
      exact ⟨tail, short, by simp [full, same, whole]⟩
    · have goes_on : ¬ (c = newline ∨ room = 0) := not_or.mpr ⟨Ne.symm other, full⟩
      rw [if_neg goes_on, if_neg goes_on]
      obtain ⟨tail, short, same⟩ := ih (room - 1) inside
      have text := pieces_flatten size (room - 1) (line ++ [newline])
      have front := pieces_flatten size (room - 1) line
      cases first : pieces size (room - 1) (line ++ [newline]) with
      | nil =>
        rw [first] at text
        simp at text
      | cons piece rest =>
        have nonempty : piece ≠ [] :=
          pieces_ne_nil piece (by rw [first]; exact List.mem_cons_self)
        have longer : chomp (c :: piece) = c :: chomp piece := by
          obtain ⟨d, ds, rfl⟩ := List.exists_cons_of_ne_nil nonempty
          rw [chomp, chomp, List.getLast?_cons_cons]
          split <;> rfl
        rw [first, List.map_cons] at same
        cases before : pieces size (room - 1) line with
        | nil =>
          -- the line is the one character, and the newline is in its piece
          rw [before] at front
          obtain rfl : [] = line := front
          obtain ⟨rfl, rfl⟩ : [newline] = piece ∧ [] = rest := by simpa [pieces] using first
          exact ⟨[], .inl rfl, by simp [chomp]⟩
        | cons piece' rest' =>
          rw [before, List.cons_append] at same
          obtain ⟨head, rest_eq⟩ := List.cons.inj same
          refine ⟨tail, short, ?_⟩
          simp only [List.map_cons, longer, head, rest_eq, List.cons_append]

theorem wordsOf_pieces {pieces : List (List Char)} (clean : ∀ piece ∈ pieces, nul ∉ piece) :
    pieces.map wordsOf = (pieces.map chomp).map (runs (· = ' ')) := by
  rw [List.map_map]
  exact List.map_congr_left fun piece listed => wordsOf_eq (clean piece listed)

/-- The words in the pieces of one line. -/
def lineParts (line : List Char) : List (List (List Char)) :=
  ((fgets 1024 line).map (runs (· = ' '))).filter (· ≠ [])

theorem not_mem_of_mem_fgets {c : Char} {text piece : List Char} (missing : c ∉ text)
    (listed : piece ∈ fgets 1024 text) : c ∉ piece := fun inside => by
  refine missing ?_
  rw [← pieces_flatten 1022 1022 text]
  exact List.mem_flatten_of_mem listed inside

theorem dispatched_line {line : List Char} (clean : nul ∉ line) (inside : newline ∉ line) :
    dispatched (fgets 1024 line) = lineParts line := by
  have same : (fgets 1024 line).map chomp = fgets 1024 line :=
    (List.map_congr_left fun piece listed =>
      chomp_eq_self (not_mem_of_mem_fgets inside listed)).trans (List.map_id _)
  rw [dispatched, wordsOf_pieces fun piece => not_mem_of_mem_fgets clean, same, lineParts]

theorem dispatched_ended {line : List Char} (clean : nul ∉ line) (inside : newline ∉ line) :
    dispatched (fgets 1024 (line ++ [newline])) = lineParts line := by
  have clean' : nul ∉ line ++ [newline] := by simpa [clean] using (by decide : nul ≠ newline)
  obtain ⟨tail, short, same⟩ := pieces_line 1022 1022 inside
  have none : (tail.map (runs (· = ' '))).filter (· ≠ []) = [] := by
    obtain rfl | rfl := short <;> simp [runs]
  rw [dispatched, wordsOf_pieces fun piece => not_mem_of_mem_fgets clean', fgets, same,
    List.map_append, List.filter_append, none, List.append_nil, lineParts, fgets]

/-- The loop dispatches the words of the pieces, line by line. -/
theorem dispatched_eq {text : List Char} (clean : nul ∉ text) :
    dispatched (fgets 1024 text) = (text.splitOn newline).flatMap lineParts := by
  induction text using stretches (· = newline) with
  | inner line inside =>
    have inside : newline ∉ line := fun here => by simpa using inside newline here
    rw [List.splitOn_eq_singleton inside, List.flatMap_singleton, dispatched_line clean inside]
  | next line y rest inside last ih =>
    obtain rfl : y = newline := of_decide_eq_true last
    have inside : newline ∉ line := fun here => by simpa using inside newline here
    have clean_line : nul ∉ line := fun here => clean (List.mem_append_left _ here)
    have clean_rest : nul ∉ rest := fun here =>
      clean (List.mem_append_right _ (List.mem_cons_of_mem _ here))
    have cut : fgets 1024 (line ++ newline :: rest) =
        fgets 1024 (line ++ [newline]) ++ fgets 1024 rest := pieces_append 1022 1022 line rest
    rw [List.splitOn_append_cons_self_of_not_mem inside, List.flatMap_cons, ← ih clean_rest,
      ← dispatched_ended clean_line inside, cut, dispatched, List.map_append, List.filter_append]
    rfl

theorem commands_eq (text : List Char) :
    commands text = (text.splitOn newline).flatMap fun line => unlessEmpty (runs (· = ' ') line) := by
  unfold commands
  induction text.splitOn newline with
  | nil => rfl
  | cons line rest ih =>
    rw [List.map_cons, List.flatMap_cons, ← ih]
    by_cases blank : runs (· = ' ') line = []
    · simp [blank, unlessEmpty]
    · simp [blank, unlessEmpty]

/-- A piece that is not all spaces. -/
def Wordy (piece : List Char) : Prop := ∃ c ∈ piece, c ≠ ' '

instance (piece : List Char) : Decidable (Wordy piece) :=
  inferInstanceAs (Decidable (∃ c ∈ piece, c ≠ ' '))

theorem wordy_iff {piece : List Char} : Wordy piece ↔ runs (· = ' ') piece ≠ [] := by
  simp [Wordy, runs_eq_nil]

theorem lineParts_iff (line : List Char) :
    lineParts line = unlessEmpty (runs (· = ' ') line) ↔ (fgets 1024 line).countP Wordy ≤ 1 := by
  have count : (fgets 1024 line).countP (runs (· = ' ') · ≠ []) = (fgets 1024 line).countP Wordy := by
    simp only [wordy_iff]
  rw [← count]
  constructor
  · intro same
    have short := length_unlessEmpty_le (runs (· = ' ') line)
    rwa [← same, lineParts, length_runs_parts] at short
  · intro one
    rw [lineParts, runs_flatten one, fgets, pieces_flatten]

theorem length_le_lineParts (line : List Char) :
    (unlessEmpty (runs (· = ' ') line)).length ≤ (lineParts line).length := by
  by_cases one : (fgets 1024 line).countP Wordy ≤ 1
  · rw [(lineParts_iff line).mpr one]
  · have short := length_unlessEmpty_le (runs (· = ' ') line)
    have many : (lineParts line).length = (fgets 1024 line).countP Wordy := by
      rw [lineParts, length_runs_parts]
      simp only [wordy_iff]
    omega

/-- The loop cuts words off at a NUL. -/
theorem nul_not_mem_turns {text : List Char} {words : List (List Char)} {word : List Char}
    (taken : .command words ∈ turns text) (listed : word ∈ words) : nul ∉ word := by
  obtain ⟨piece, -, found⟩ := List.mem_filterMap.mp taken
  unfold turn? at found
  split_ifs at found with outside blank
  · cases found
  obtain rfl : wordsOf piece = words := Turn.command.inj (Option.some.inj found)
  intro inside
  rw [wordsOf, splitStr2Vec_eq] at listed
  have chomped : nul ∈ chomp (upToNul piece) := mem_of_mem_runs listed inside
  have kept : nul ∈ upToNul piece := by
    unfold chomp at chomped
    split at chomped
    · exact List.mem_of_mem_dropLast chomped
    · exact chomped
  exact absurd (List.mem_takeWhile_imp kept) (by decide)

theorem exists_line {text : List Char} {c : Char} (inside : c ∈ text) (other : c ≠ newline) :
    ∃ line ∈ text.splitOn newline, c ∈ line := by
  induction text using stretches (· = newline) with
  | inner line clear =>
    have clear : newline ∉ line := fun here => by simpa using clear newline here
    exact ⟨line, by rw [List.splitOn_eq_singleton clear]; exact List.mem_singleton_self _, inside⟩
  | next line y rest clear last ih =>
    obtain rfl : y = newline := of_decide_eq_true last
    rw [List.splitOn_append_cons_self]
    obtain first | later := List.mem_append.mp inside
    · have clear : newline ∉ line := fun here => by simpa using clear newline here
      rw [List.splitOn_eq_singleton clear]
      exact ⟨line, List.mem_cons_self, first⟩
    · obtain ⟨found, listed, within⟩ := ih ((List.mem_cons.mp later).resolve_left other)
      exact ⟨found, List.mem_append_right _ listed, within⟩

theorem exists_command {text : List Char} {c : Char} (inside : c ∈ text) (other : c ≠ newline)
    (visible : c ≠ ' ') : ∃ words ∈ commands text, ∃ word ∈ words, c ∈ word := by
  obtain ⟨line, listed, inside⟩ := exists_line inside other
  obtain ⟨word, found, within⟩ : ∃ word ∈ runs (· = ' ') line, c ∈ word :=
    exists_run inside (by simpa using visible)
  refine ⟨_, List.mem_filter.mpr ⟨List.mem_map_of_mem listed, ?_⟩, word, found, within⟩
  simpa using List.ne_nil_of_mem found

end Lines

/-- The loop takes its turns one after the other, and they are the commands of the text if
and only if the text has no NUL and `fgets` reads the words of each line in one piece. -/
theorem script_iff (text : List Char) :
    (∀ (host : Host κ) (ifprint : Bool) (n : Nat),
      mainLoop host ifprint n text = (turns text).forM (takeTurn host ifprint n)) ∧
    (turns text = (commands text).map .command ↔
      nul ∉ text ∧ ∀ line ∈ text.splitOn newline, (fgets 1024 line).countP Wordy ≤ 1) := by
  refine ⟨fun host ifprint n => mainLoop_eq text, ?_⟩
  have same_iff (clean : nul ∉ text) : turns text = (commands text).map .command ↔
      ∀ line ∈ text.splitOn newline, (fgets 1024 line).countP Wordy ≤ 1 := by
    rw [turns_eq clean, List.map_inj_right fun _ _ => Turn.command.inj, dispatched_eq clean,
      commands_eq, flatMap_eq_iff fun line _ => length_le_lineParts line]
    exact forall₂_congr fun line _ => lineParts_iff line
  constructor
  · intro same
    have clean : nul ∉ text := by
      intro inside
      obtain ⟨words, listed, word, found, within⟩ :=
        exists_command inside (by decide : nul ≠ newline) (by decide)
      have taken : .command words ∈ turns text := by
        rw [same]
        exact List.mem_map_of_mem listed
      exact nul_not_mem_turns taken found within
    exact ⟨clean, (same_iff clean).mp same⟩
  · exact fun fits => (same_iff fits.1).mpr fits.2

/-- `help` behind so many spaces that its first letter fills the buffer. -/
def indented : List Char := List.replicate 1022 ' ' ++ ['h', 'e', 'l', 'p', newline]

/-- The one command of the line is dispatched as two. -/
theorem turns_indented : commands indented = [[['h', 'e', 'l', 'p']]] ∧
    turns indented = [.command [['h']], .command [['e', 'l', 'p']]] ∧
    turns indented ≠ (commands indented).map .command := by
  have clean : nul ∉ indented := by decide +kernel
  have one : commands indented = [[['h', 'e', 'l', 'p']]] := by decide +kernel
  have parts : (indented.splitOn newline).flatMap lineParts = [[['h']], [['e', 'l', 'p']]] := by
    decide +kernel
  rw [turns_eq clean, dispatched_eq clean, parts, one]
  exact ⟨rfl, rfl, by simp⟩

end UnixProgramming.Sdb
