import UnixProgramming.Sdb.Hit
import UnixProgramming.Sdb.Input
import UnixProgramming.Sdb.Output

/-!
# The three views of a register

`get` and `set` find a register in the table of names, `getregs` by positions of its own.
`get` prints a register without sign, and `set` reads a number with one.
-/

namespace UnixProgramming.Sdb

open Memory Stateful Text

variable {κ : Type}

section Views

/-- What `get` prints for a register. -/
def regText (reg : String) (v : BitVec 64) : String :=
  reg ++ " = " ++ toString v.toInt ++ " (0x" ++ hex v ++ ")\n"

/-- One line of `getregs`. -/
def rowText (regs : UserRegs) (row : List (String × Fin 27)) : String :=
  String.intercalate "\t" (row.map fun (name, i) => name ++ " " ++ hex (regs i)) ++ "\n"

/-- The name of a register above its column in `getregs`. -/
def label (reg : String) : String := String.ofList (reg.toList.map Char.toUpper)

/-- The word that `getregs` shows under the name of a register. -/
def column? (reg : String) : Option (Fin 27) := regColumns.flatten.lookup (label reg)

/-- What `getregs` prints under the name of a register. -/
def columnText (regs : UserRegs) (reg : String) : Option String := (column? reg).map fun i => hex (regs i)

/-- The commands `get` and `getregs` show these registers. -/
def ShowsRegs (host : Host κ) (w : World κ) (regs : UserRegs) : Prop :=
  (∀ reg offset, regsOffset.lookup reg = some offset →
    Shows host (.get reg) w [regText reg (regs offset)]) ∧
  Shows host .getregs w (regColumns.map (rowText regs))

variable {host : Host κ} {w : World κ} {c : Child κ}

theorem showsRegs_of_stopped (host : Host κ) (h : w.Stopped c) (running : w.info.state = .running) :
    ShowsRegs host w c.tracee.regs := by
  have asked := getRegs_of_stopped h
  constructor
  · intro reg offset found
    refine Shows.of_log (n := 0) (.ptrace w.info.pid .getRegs :: w.log) ?_ rfl
    simp [exec, printReg, running, asked, found, stderr, emit, regText]
  · refine Shows.of_log (n := 0) (.ptrace w.info.pid .getRegs :: w.log) ?_ rfl
    simp only [exec, printAllRegs, bind_apply, get_apply, running, ne_eq, not_true_eq_false,
      if_false, asked]
    exact forIn_stderr regColumns (rowText c.tracee.regs) _

/-- The child with `v` in one of its registers. -/
def Child.setWord (c : Child κ) (offset : Fin 27) (v : BitVec 64) : Child κ :=
  { c with tracee := { c.tracee with regs := Function.update c.tracee.regs offset v } }

@[simp] theorem Child.setWord_regs (c : Child κ) (offset : Fin 27) (v : BitVec 64) :
    (c.setWord offset v).tracee.regs = Function.update c.tracee.regs offset v := rfl

theorem set_step (host : Host κ) (h : w.Stopped c) (running : w.info.state = .running) {reg : String}
    {offset : Fin 27} (found : regsOffset.lookup reg = some offset) (v : BitVec 64) :
    ∃ w', Step host (.set reg v) w w' ∧ w'.Stopped (c.setWord offset v) ∧
      w'.info.state = .running := by
  obtain ⟨l, same⟩ := setReg_eq h running reg v
  rw [found] at same
  exact ⟨_, ⟨0, same⟩, ⟨rfl, h.pid, h.resumed⟩, running⟩

theorem mem_of_lookup {reg : String} {offset : Fin 27} {table : List (String × Fin 27)}
    (found : table.lookup reg = some offset) : (reg, offset) ∈ table := by
  obtain ⟨before, after, rfl, -⟩ := List.lookup_eq_some_iff.mp found
  simp

/-- `getregs` shows `rbp` under the name of `rbx`, and every other register under its own. -/
theorem column?_eq {reg : String} {offset : Fin 27} (found : regsOffset.lookup reg = some offset) :
    column? reg = some (if reg = "rbx" then 4 else offset) := by
  have all : ∀ p ∈ regsOffset, column? p.1 = some (if p.1 = "rbx" then 4 else p.2) := by
    decide
  exact all (reg, offset) (mem_of_lookup found)

theorem offset_ne {reg reg' : String} {offset offset' : Fin 27}
    (found : regsOffset.lookup reg = some offset) (found' : regsOffset.lookup reg' = some offset')
    (other : reg ≠ reg') : offset ≠ offset' := by
  have all : ∀ p ∈ regsOffset, ∀ q ∈ regsOffset, p.1 ≠ q.1 → p.2 ≠ q.2 := by decide
  exact all _ (mem_of_lookup found) _ (mem_of_lookup found') other

end Views

section Consistency

variable {host : Host κ} {w : World κ} {c : Child κ}

/-- The column of every register shows what `get` shows. -/
def ViewsAgree (regs : UserRegs) : Prop :=
  ∀ reg offset, regsOffset.lookup reg = some offset → columnText regs reg = some (hex (regs offset))

theorem viewsAgree_iff (regs : UserRegs) : ViewsAgree regs ↔ regs 5 = regs 4 := by
  constructor
  · intro agree
    have shown := agree "rbx" 5 (by decide)
    have at_5 : regsOffset.lookup "rbx" = some 5 := by decide
    rw [columnText, column?_eq at_5] at shown
    exact (hex_inj.mp (Option.some.inj shown)).symm
  · intro same reg offset found
    rw [columnText, column?_eq found]
    by_cases rbx : reg = "rbx"
    · subst rbx
      have at_5 : offset = 5 := Option.some.inj (found.symm.trans (by decide))
      subst at_5
      simp [same]
    · simp [rbx]

/-- What `set reg v` should do to the registers that `get` and `getregs` show. -/
structure SetsOnly (regs regs' : UserRegs) (reg : String) (v : BitVec 64) : Prop where
  stored : ∀ offset, regsOffset.lookup reg = some offset → regText reg (regs' offset) = regText reg v
  others : ∀ other offset, other ≠ reg → regsOffset.lookup other = some offset →
    regText other (regs' offset) = regText other (regs offset) ∧
      columnText regs' other = columnText regs other

theorem setsOnly_iff {regs : UserRegs} {reg : String} {offset : Fin 27} {v : BitVec 64}
    (found : regsOffset.lookup reg = some offset) :
    SetsOnly regs (Function.update regs offset v) reg v ↔ (reg = "rbp" → v = regs 4) := by
  have kept {other : String} {i : Fin 27} (apart : other ≠ reg)
      (known : regsOffset.lookup other = some i) : Function.update regs offset v i = regs i :=
    Function.update_of_ne (offset_ne known found apart) v regs
  have at_4 : regsOffset.lookup "rbp" = some 4 := by decide
  constructor
  · rintro only rfl
    obtain rfl : 4 = offset := Option.some.inj (at_4.symm.trans found)
    have shown := (only.others "rbx" 5 (by decide) (by decide)).2
    have at_5 : regsOffset.lookup "rbx" = some 5 := by decide
    rw [columnText, columnText, column?_eq at_5] at shown
    have same : hex (Function.update regs 4 v 4) = hex (regs 4) := Option.some.inj shown
    rw [Function.update_self] at same
    exact hex_inj.mp same
  · intro keeps
    refine ⟨fun i known => ?_, fun other i apart known => ⟨by rw [kept apart known], ?_⟩⟩
    · obtain rfl := Option.some.inj (found.symm.trans known)
      rw [Function.update_self]
    · rw [columnText, columnText, column?_eq known]
      by_cases rbx : other = "rbx"
      · have word_4 : Function.update regs offset v 4 = regs 4 := by
          by_cases rbp : reg = "rbp"
          · subst rbp
            obtain rfl : 4 = offset := Option.some.inj (at_4.symm.trans found)
            rw [Function.update_self, keeps rfl]
          · exact Function.update_of_ne (offset_ne at_4 found fun same => rbp same.symm) v regs
        simp [rbx, word_4]
      · simp [rbx, kept apart known]

/-- The views agree before and after `set reg v`, and only `reg` has changed in them. -/
structure Coherent (regs regs' : UserRegs) (reg : String) (v : BitVec 64) : Prop where
  before : ViewsAgree regs
  sets : SetsOnly regs regs' reg v
  after : ViewsAgree regs'

theorem coherent_iff {regs : UserRegs} {reg : String} {offset : Fin 27} {v : BitVec 64}
    (found : regsOffset.lookup reg = some offset) :
    Coherent regs (Function.update regs offset v) reg v ↔
      regs 5 = regs 4 ∧ (reg = "rbx" ∨ reg = "rbp" → v = regs 4) := by
  have at_4 : regsOffset.lookup "rbp" = some 4 := by decide
  have at_5 : regsOffset.lookup "rbx" = some 5 := by decide
  constructor
  · rintro ⟨before, sets, after⟩
    refine ⟨(viewsAgree_iff regs).mp before, ?_⟩
    rintro (rfl | rfl)
    · obtain rfl : 5 = offset := Option.some.inj (at_5.symm.trans found)
      have same := (viewsAgree_iff _).mp after
      rwa [Function.update_self, Function.update_of_ne (by decide)] at same
    · exact (setsOnly_iff found).mp sets rfl
  · rintro ⟨same, keeps⟩
    refine ⟨(viewsAgree_iff regs).mpr same, (setsOnly_iff found).mpr fun rbp => keeps (.inr rbp),
      (viewsAgree_iff _).mpr ?_⟩
    by_cases rbx : reg = "rbx"
    · subst rbx
      obtain rfl : 5 = offset := Option.some.inj (at_5.symm.trans found)
      rw [Function.update_self, Function.update_of_ne (by decide), keeps (.inl rfl)]
    by_cases rbp : reg = "rbp"
    · subst rbp
      obtain rfl : 4 = offset := Option.some.inj (at_4.symm.trans found)
      rw [Function.update_self, Function.update_of_ne (by decide), keeps (.inr rfl), same]
    · rw [Function.update_of_ne (offset_ne at_5 found fun eq => rbx eq.symm),
        Function.update_of_ne (offset_ne at_4 found fun eq => rbp eq.symm), same]

/-- A stopped debuggee: `get` and `getregs` show its registers, a `set` with an unknown name
leaves it alone, and a `set` with a known one is coherent if and only if `rbx` and `rbp` hold
the same value and do so afterwards. -/
theorem views_iff (h : w.Stopped c) (running : w.info.state = .running) :
    ShowsRegs host w c.tracee.regs ∧
    (∀ reg v, regsOffset.lookup reg = none →
      ∃ w', Step host (.set reg v) w w' ∧ w'.child = w.child) ∧
    ∀ reg offset v, regsOffset.lookup reg = some offset →
      ∃ w' c', Step host (.set reg v) w w' ∧ w'.Stopped c' ∧ ShowsRegs host w' c'.tracee.regs ∧
        (Coherent c.tracee.regs c'.tracee.regs reg v ↔ c.tracee.regs 5 = c.tracee.regs 4 ∧
          (reg = "rbx" ∨ reg = "rbp" → v = c.tracee.regs 4)) := by
  refine ⟨showsRegs_of_stopped host h running, fun reg v unknown => ?_, fun reg offset v found => ?_⟩
  · obtain ⟨l, same⟩ := setReg_eq h running reg v
    rw [unknown] at same
    exact ⟨_, ⟨0, same⟩, rfl⟩
  · obtain ⟨w', step, stopped, running'⟩ := set_step host h running found v
    exact ⟨w', _, step, stopped, showsRegs_of_stopped host stopped running', coherent_iff found⟩

end Consistency

section RoundTrip

/-- A line of words. -/
def lineOf (words : List (List Char)) : List Char := [' '].intercalate words ++ [newline]

/-- A word without blanks and control characters. -/
def Visible (word : List Char) : Prop := word ≠ [] ∧ ∀ c ∈ word, 32 < c.toNat

theorem runs_intercalate {words : List (List Char)} (visible : ∀ word ∈ words, Visible word) :
    runs (· ∈ [' ']) ([' '].intercalate words) = words := by
  induction words with
  | nil => rfl
  | cons word rest ih =>
    obtain ⟨⟨nonempty, high⟩, visible⟩ := List.forall_mem_cons.mp visible
    have inner : ∀ c ∈ word, decide (c ∈ [' ']) = false := by
      intro c member
      have above := high c member
      rw [decide_eq_false_iff_not, List.mem_singleton]
      rintro rfl
      exact absurd above (by decide)
    cases rest with
    | nil =>
      rw [List.intercalate_singleton, runs_word nonempty inner]
    | cons next others =>
      rw [List.intercalate_cons_cons, List.append_assoc, List.singleton_append,
        runs_word_append nonempty inner (by decide), ih visible]

theorem le_of_mem_intercalate {words : List (List Char)} (visible : ∀ word ∈ words, Visible word) :
    ∀ c ∈ [' '].intercalate words, 32 ≤ c.toNat := by
  induction words with
  | nil => simp
  | cons word rest ih =>
    obtain ⟨⟨-, high⟩, visible⟩ := List.forall_mem_cons.mp visible
    intro c member
    cases rest with
    | nil =>
      rw [List.intercalate_singleton] at member
      exact Nat.le_of_lt (high c member)
    | cons next others =>
      rw [List.intercalate_cons_cons, List.append_assoc, List.singleton_append,
        List.mem_append, List.mem_cons] at member
      obtain first | rfl | later := member
      · exact Nat.le_of_lt (high c first)
      · decide
      · exact ih visible c later

theorem wordsOf_lineOf {words : List (List Char)} (visible : ∀ word ∈ words, Visible word) :
    wordsOf (lineOf words) = words := by
  have whole : upToNul (lineOf words) = lineOf words := by
    refine upToNul_eq_self fun member => ?_
    obtain inside | ended := List.mem_append.mp member
    · exact absurd (le_of_mem_intercalate visible nul inside) (by decide)
    · exact absurd (List.mem_singleton.mp ended) (by decide)
  rw [wordsOf, splitStr2Vec_eq, whole, chomp, lineOf, List.getLast?_concat, if_pos rfl,
    List.dropLast_concat, runs_intercalate visible]

/-- The hexadecimal text in what `get` prints. -/
def hexText (v : BitVec 64) : List Char := '0' :: 'x' :: Nat.toDigits 16 v.toNat

theorem regText_eq (reg : String) (v : BitVec 64) :
    regText reg v = reg ++ " = " ++ toString v.toInt ++ " (" ++ String.ofList (hexText v) ++ ")\n" := by
  have text : String.ofList (hexText v) = "0x" ++ hex v := by
    apply String.toList_injective
    simp [hex, hexText]
  rw [text, regText]
  apply String.toList_injective
  simp

/-- The line `set reg` with the text for `v`. -/
def setLine (reg : String) (v : BitVec 64) : List Char :=
  lineOf [['s', 'e', 't'], reg.toList, hexText v]

theorem wordsOf_setLine {reg : String} {offset : Fin 27}
    (found : regsOffset.lookup reg = some offset) (v : BitVec 64) :
    wordsOf (setLine reg v) = [['s', 'e', 't'], reg.toList, hexText v] := by
  have names : ∀ p ∈ regsOffset, p.1.toList ≠ [] ∧ ∀ c ∈ p.1.toList, 32 < c.toNat := by
    simp [regsOffset]
  have set : Visible ['s', 'e', 't'] := ⟨by decide, by simp⟩
  have value : Visible (hexText v) := by
    refine ⟨List.cons_ne_nil _ _, ?_⟩
    rw [hexText, List.forall_mem_cons, List.forall_mem_cons]
    exact ⟨by decide, by decide, fun c member => toNat_of_digit ((spells_hex _).digit c member)⟩
  refine wordsOf_lineOf ?_
  simp only [List.forall_mem_cons]
  exact ⟨set, names _ (mem_of_lookup found), value, by simp⟩

/-- Half of the values are out of range for `stol`. -/
theorem parse_set (reg : List Char) (v : BitVec 64) :
    parse ['s', 'e', 't'] [reg, hexText v] =
      if v.toNat < 2 ^ 63 then .command (.set (String.ofList reg) v) else .down .abort := by
  have read : numeral 16 (hexText v) = some (false, v.toNat) := numeral_prefix (spells_hex _)
  have keyword : keyword? (String.ofList ['s', 'e', 't']) = some .set := by decide
  have back : BitVec.ofInt 64 v.toNat = v := by rw [BitVec.ofInt_natCast, BitVec.ofNat_toNat, BitVec.setWidth_eq]
  simp only [parse, keyword, stol, read, signed, Bool.false_eq_true, if_false]
  by_cases fits : v.toNat < 2 ^ 63
  · rw [if_pos ⟨by omega, by omega⟩, if_pos fits, Parsed.number, back]
  · rw [if_neg (by omega), if_neg fits, Parsed.number]

variable {host : Host κ} {ifprint : Bool} {w : World κ} {c : Child κ}

/-- A line whose command brings the debugger down is not got past. -/
theorem not_pieceStep_of_down {piece cmd : List Char} {args : List (List Char)} {stop : Halt}
    (words : wordsOf piece = cmd :: args) (parsed : parse cmd args = .down stop) :
    ¬ ∃ w', PieceStep host ifprint piece w w' := by
  rintro ⟨w', step⟩
  obtain ⟨-, done⟩ := pieceStep_iff.mp step
  cases done with
  | blank none => cases words.symm.trans none
  | message found parsed' =>
    cases words.symm.trans found
    cases parsed.symm.trans parsed'
  | command found parsed' =>
    cases words.symm.trans found
    cases parsed.symm.trans parsed'

/-- The loop reads the line and goes on, and the register has the value. -/
def Stores (host : Host κ) (ifprint : Bool) (w : World κ) (c : Child κ) (reg : String)
    (offset : Fin 27) (v : BitVec 64) : Prop :=
  ∃ w', PieceStep host ifprint (setLine reg v) w w' ∧ w'.Stopped (c.setWord offset v)

/-- The text that `get` prints for a value stores it again if and only if the value is
below 2^63. -/
theorem stores_iff (h : w.Stopped c) (running : w.info.state = .running) {reg : String}
    {offset : Fin 27} (found : regsOffset.lookup reg = some offset) (v : BitVec 64) :
    (c.tracee.regs offset = v → Shows host (.get reg) w
      [reg ++ " = " ++ toString v.toInt ++ " (" ++ String.ofList (hexText v) ++ ")\n"]) ∧
    (Stores host ifprint w c reg offset v ↔ v.toNat < 2 ^ 63) := by
  have words := wordsOf_setLine found v
  have parsed := parse_set reg.toList v
  constructor
  · rintro rfl
    rw [← regText_eq]
    exact (showsRegs_of_stopped host h running).1 reg offset found
  constructor
  · rintro ⟨w', step, -⟩
    by_contra large
    rw [if_neg large] at parsed
    exact not_pieceStep_of_down words parsed ⟨w', step⟩
  · intro fits
    rw [if_pos fits, String.ofList_toList] at parsed
    obtain ⟨w', set, stopped, -⟩ := set_step host h running found v
    have inBuffer : upToNul (setLine reg v) ≠ [] := by
      intro empty
      rw [wordsOf, splitStr2Vec_eq, empty] at words
      cases words
    refine ⟨_, pieceStep_iff.mpr ⟨inBuffer, .command words parsed set⟩, ?_⟩
    cases ifprint <;> exact ⟨stopped.child, stopped.pid, stopped.resumed⟩

end RoundTrip

section Samples

open Sample

/-- A debuggee that has just been started: all its general registers are zero. -/
theorem started_fault : ∃ w c, Reachable (host fault) w ∧ w.Stopped c ∧
    w.info.state = .running ∧ ∀ offset ≠ 16, c.tracee.regs offset = 0 := by
  have summary : ((session (host fault) 40 [.load "fault", .start]).bind fun w =>
      w.child.map fun c => decide (∀ offset ≠ 16, c.tracee.regs offset = 0)) = some true := by
    decide +kernel
  obtain ⟨w, ended, rest⟩ := Option.bind_eq_some_iff.mp summary
  obtain ⟨c, alive, zero⟩ := Option.map_eq_some_iff.mp rest
  obtain ⟨reached, stopped, running, -⟩ := stopped_of_session ended (by simp) alive
  exact ⟨w, c, reached, stopped, running, of_decide_eq_true zero⟩

theorem views_iff_fault : ∃ w w' c', Reachable (host fault) w ∧
    Step (host fault) (.set "rax" 7) w w' ∧ w'.Stopped c' ∧
    ShowsRegs (host fault) w' c'.tracee.regs ∧ ViewsAgree c'.tracee.regs := by
  obtain ⟨w, c, reached, stopped, running, zero⟩ := started_fault
  obtain ⟨w', c', step, stopped', shows', exactly⟩ : ∃ w' c', Step (host fault) (.set "rax" 7) w w' ∧
      w'.Stopped c' ∧ ShowsRegs (host fault) w' c'.tracee.regs ∧
      (Coherent c.tracee.regs c'.tracee.regs "rax" 7 ↔ c.tracee.regs 5 = c.tracee.regs 4 ∧
        ("rax" = "rbx" ∨ "rax" = "rbp" → 7 = c.tracee.regs 4)) :=
    (views_iff stopped running).2.2 "rax" 10 7 (by decide)
  refine ⟨w, w', c', reached, step, stopped', shows', (exactly.mpr ⟨?_, fun other => ?_⟩).after⟩
  · rw [zero 5 (by decide), zero 4 (by decide)]
  · exact absurd other (by decide)

/-- After `set rbp 7`, `getregs` prints 7 under the name of `rbx` and `get rbx` prints 0. -/
theorem getregs_misprints_rbx : ∃ w c w' c', Reachable (host fault) w ∧ w.Stopped c ∧
    w.info.state = .running ∧ Step (host fault) (.set "rbp" 7) w w' ∧ w'.Stopped c' ∧
    columnText c'.tracee.regs "rbx" = some "7" ∧
    Shows (host fault) (.get "rbx") w' ["rbx = 0 (0x0)\n"] ∧
    ¬ Coherent c.tracee.regs c'.tracee.regs "rbp" 7 := by
  obtain ⟨w, c, reached, stopped, running, zero⟩ := started_fault
  have at_4 : regsOffset.lookup "rbp" = some 4 := by decide
  have at_5 : regsOffset.lookup "rbx" = some 5 := by decide
  obtain ⟨w', step, stopped', running'⟩ := set_step (host fault) stopped running at_4 7
  have wrong : columnText (c.setWord 4 7).tracee.regs "rbx" = some "7" := by
    rw [columnText, column?_eq at_5, if_pos rfl, Option.map_some,
      Child.setWord_regs, Function.update_self]
    decide
  have kept : (c.setWord 4 7).tracee.regs 5 = 0 := zero 5 (by decide)
  refine ⟨w, c, w', _, reached, stopped, running, step, stopped', wrong, ?_, fun coherent => ?_⟩
  · have shown := (showsRegs_of_stopped (host fault) stopped' running').1 "rbx" 5 at_5
    rwa [kept] at shown
  · have right := coherent.after "rbx" 5 (by decide)
    rw [kept, wrong] at right
    exact absurd right (by decide)

theorem stores_iff_fault : ∃ w c, Reachable (host fault) w ∧ w.Stopped c ∧
    Stores (host fault) true w c "rax" 10 7 := by
  obtain ⟨w, c, reached, stopped, running, -⟩ := started_fault
  have at_10 : regsOffset.lookup "rax" = some 10 := by decide
  exact ⟨w, c, reached, stopped, (stores_iff stopped running at_10 7).2.mpr (by decide)⟩

/-- `get rax` prints `0xffffffffffffffff` for -1, and `set rax` with this text ends the
debugger. -/
theorem set_aborts_on_printed : ∃ w c w' c', Reachable (host fault) w ∧ w.Stopped c ∧
    w.info.state = .running ∧ Step (host fault) (.set "rax" (-1)) w w' ∧ w'.Stopped c' ∧
    Shows (host fault) (.get "rax") w' ["rax = -1 (0xffffffffffffffff)\n"] ∧
    parse ['s', 'e', 't'] [['r', 'a', 'x'], hexText (-1)] = .down .abort ∧
    ∀ ifprint, ¬ Stores (host fault) ifprint w' c' "rax" 10 (-1) := by
  obtain ⟨w, c, reached, stopped, running, -⟩ := started_fault
  have at_10 : regsOffset.lookup "rax" = some 10 := by decide
  obtain ⟨w', step, stopped', running'⟩ := set_step (host fault) stopped running at_10 (-1)
  have parsed : parse ['s', 'e', 't'] [['r', 'a', 'x'], hexText (-1)] = .down .abort :=
    parse_set ['r', 'a', 'x'] (-1)
  have words : wordsOf (setLine "rax" (-1)) = [['s', 'e', 't'], ['r', 'a', 'x'], hexText (-1)] :=
    wordsOf_setLine at_10 (-1)
  refine ⟨w, c, w', c.setWord 10 (-1), reached, stopped, running, step, stopped', ?_, parsed, ?_⟩
  · have shown := (showsRegs_of_stopped (host fault) stopped' running').1 "rax" 10 at_10
    rwa [Child.setWord_regs, Function.update_self] at shown
  · rintro ifprint ⟨v, step', -⟩
    exact not_pieceStep_of_down words parsed ⟨v, step'⟩

end Samples

end UnixProgramming.Sdb
