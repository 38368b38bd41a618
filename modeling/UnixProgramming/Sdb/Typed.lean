import UnixProgramming.Foundation.Printf
import UnixProgramming.Sdb.Register
import UnixProgramming.Sdb.Script

/-!
# Commands as they are typed

Every command has a line that the loop of `main` takes for it, so a sequence of commands
can be written down as a script. Addresses and register values of all sizes have a line,
the upper half of the latter as negative numbers; an index has one if it is an `int`.
-/

namespace UnixProgramming.Sdb

open Memory Stateful Text Printf

variable {κ : Type}

section Lines

/-- The numeral of a register value, as `stol` reads it. -/
def signedHex (v : BitVec 64) : List Char :=
  if v.toInt < 0 then '-' :: Nat.toDigits 16 v.toInt.natAbs else Nat.toDigits 16 v.toInt.natAbs

/-- The first word of the command's line. -/
def Command.word : Command → String
  | .break _ => "break"
  | .cont => "cont"
  | .delete _ => "delete"
  | .disasm _ => "disasm"
  | .dump _ => "dump"
  | .exit => "exit"
  | .get _ => "get"
  | .getregs => "getregs"
  | .help => "help"
  | .list => "list"
  | .load _ => "load"
  | .run => "run"
  | .vmmap => "vmmap"
  | .set _ _ => "set"
  | .si => "si"
  | .start => "start"
  | .unknown => "?"

def Command.operands : Command → List (List Char)
  | .break addr | .disasm addr | .dump addr => [Nat.toDigits 16 addr.toNat]
  | .delete idx => [decimal idx]
  | .get reg => [reg.toList]
  | .load path => [path.toList]
  | .set reg val => [reg.toList, signedHex val]
  | _ => []

def Command.line (c : Command) : List Char := lineOf (c.word.toList :: c.operands)

/-- The line of the command fits the buffer and comes apart into its words, and an index is
an `int`. -/
structure Command.Typable (c : Command) : Prop where
  visible : ∀ word ∈ c.operands, Visible word
  fits : c.line.length < 1024
  index : ∀ idx, c = .delete idx → -2 ^ 31 ≤ idx ∧ idx < 2 ^ 31

def scriptOf (cs : List Command) : List Char := cs.flatMap Command.line

end Lines

section Numerals

variable {base : Nat} {text : List Char} {v : Int}

theorem readInt_signedHex (v : BitVec 64) : readInt 16 (signedHex v) = some v.toInt := by
  unfold signedHex
  split
  · next negative =>
    rw [readInt, numeral_minus (by decide) (spells_hex v.toInt.natAbs)]
    refine congrArg some ?_
    change -(v.toInt.natAbs : Int) = v.toInt
    omega
  · rw [readInt_digits (by decide) (by decide)]
    exact congrArg some (Int.natAbs_of_nonneg (by omega))

theorem stol_of_readInt (read : readInt base text = some v) (least : -2 ^ 63 ≤ v) (most : v < 2 ^ 63) :
    stol base text = .ok v := by
  rcases Option.map_eq_some_iff.mp read with ⟨⟨negative, n⟩, found, rfl⟩
  rw [stol, found]
  exact if_pos ⟨least, most⟩

theorem stoi_of_readInt (read : readInt base text = some v) (least : -2 ^ 31 ≤ v) (most : v < 2 ^ 31) :
    stoi base text = .ok v := by
  rcases Option.map_eq_some_iff.mp read with ⟨⟨negative, n⟩, found, rfl⟩
  rw [stoi, found]
  exact if_pos ⟨least, most⟩

theorem stoull_toDigits (addr : Addr) : stoull 16 (Nat.toDigits 16 addr.toNat) = .ok addr := by
  have value : BitVec.ofInt 64 (signed false addr.toNat) = addr := by
    rw [signed, if_neg (by decide), BitVec.ofInt_natCast, BitVec.ofNat_toNat, BitVec.setWidth_eq]
  rw [stoull, numeral_of_spells (by decide) (spells_hex addr.toNat)]
  dsimp only
  rw [if_pos addr.isLt, value]

end Numerals

section Parse

theorem keyword_word (c : Command) : keyword? (String.ofList c.word.toList) = keyword? c.word := by
  rw [String.ofList_toList]

/-- The words of a command's line are parsed back into the command. -/
theorem parse_words {c : Command} (typable : c.Typable) :
    parse c.word.toList c.operands = .command c := by
  have addr (make : Addr → Command) (a : Addr) :
      Parsed.addr make [Nat.toDigits 16 a.toNat] = .command (make a) := by
    rw [Parsed.addr, stoull_toDigits, Parsed.number]
  unfold parse
  rw [keyword_word]
  cases c with
  | «break» a => exact addr .break a
  | disasm a => exact addr .disasm a
  | dump a => exact addr .dump a
  | delete idx =>
    rcases typable.index idx rfl with ⟨least, most⟩
    change Parsed.number Command.delete (stoi 10 (decimal idx)) = _
    rw [stoi_of_readInt (readInt_decimal idx) least most, Parsed.number]
  | get reg =>
    change Parsed.command (.get (String.ofList reg.toList)) = _
    rw [String.ofList_toList]
  | load path =>
    change Parsed.command (.load (String.ofList path.toList)) = _
    rw [String.ofList_toList]
  | set reg val =>
    change Parsed.number (fun v => Command.set (String.ofList reg.toList) (BitVec.ofInt 64 v))
      (stol 16 (signedHex val)) = _
    rw [stol_of_readInt (readInt_signedHex val) (BitVec.le_toInt val) (BitVec.toInt_lt),
      Parsed.number, String.ofList_toList, BitVec.ofInt_toInt]
  | _ => rfl

end Parse

section Typing

theorem visible_digits {base n : Nat} (low : 1 < base) (small : base ≤ 16) :
    Visible (Nat.toDigits base n) := by
  have spelled := spells_toDigits low small n
  exact ⟨spelled.nonempty, fun c inside =>
    toNat_of_digit (digit_isSome_sixteen small (spelled.digit c inside))⟩

theorem visible_signedHex (v : BitVec 64) : Visible (signedHex v) := by
  have digits : Visible (Nat.toDigits 16 v.toInt.natAbs) := visible_digits (by decide) le_rfl
  unfold signedHex
  split
  · exact ⟨List.cons_ne_nil _ _, List.forall_mem_cons.mpr ⟨by decide, digits.2⟩⟩
  · exact digits

theorem length_toDigits_le (n k : Nat) (small : n < 16 ^ k) (some_digit : 0 < k) :
    (Nat.toDigits 16 n).length ≤ k := (Nat.length_toDigits_le_iff (by decide) some_digit).mpr small

/-- An address of any size can be typed. -/
theorem typable_addr {c : Command} {addr : Addr}
    (takes : c = .break addr ∨ c = .disasm addr ∨ c = .dump addr) : c.Typable := by
  have short : (Nat.toDigits 16 addr.toNat).length ≤ 16 :=
    length_toDigits_le _ _ addr.isLt (by decide)
  rcases takes with rfl | rfl | rfl
  all_goals
    refine ⟨List.forall_mem_singleton.mpr (visible_digits (by decide) le_rfl), ?_,
      fun _ other => by cases other⟩
    simp [Command.line, lineOf, Command.word, Command.operands, List.intercalate_cons_cons]
    omega

theorem typable_of_operands_nil {c : Command} (bare : c.operands = []) : c.Typable := by
  refine ⟨bare ▸ List.forall_mem_nil _, ?_, ?_⟩
  · have short : c.word.toList.length ≤ 7 := by cases c <;> simp [Command.word]
    rw [Command.line, bare]
    simp only [lineOf, List.intercalate_singleton, List.length_append, List.length_singleton]
    omega
  · rintro idx rfl
    cases bare

/-- So can a value of any size for a register of the table. -/
theorem typable_set {reg : String} {offset : Fin 27} (found : regsOffset.lookup reg = some offset)
    (v : BitVec 64) : (Command.set reg v).Typable := by
  have names : ∀ p ∈ regsOffset, (p.1.toList ≠ [] ∧ ∀ c ∈ p.1.toList, 32 < c.toNat) ∧
      p.1.toList.length ≤ 5 := by
    simp [regsOffset]
  rcases names _ (mem_of_lookup found) with ⟨visible, short⟩
  have digits : (Nat.toDigits 16 v.toInt.natAbs).length ≤ 16 := by
    refine length_toDigits_le _ _ ?_ (by decide)
    have := v.isLt
    have := BitVec.toInt_eq_toNat_cond v
    split at this <;> omega
  have value : (signedHex v).length ≤ 17 := by
    unfold signedHex
    split
    · exact Nat.succ_le_succ digits
    · omega
  refine ⟨List.forall_mem_cons.mpr ⟨visible, List.forall_mem_singleton.mpr (visible_signedHex v)⟩,
    ?_, fun _ other => by cases other⟩
  simp [Command.line, lineOf, Command.word, Command.operands, List.intercalate_cons_cons] at short ⊢
  omega

end Typing

section Loop

variable {host : Host κ} {ifprint : Bool} {n : Nat} {c : Command} {cs : List Command}

theorem visible_word (c : Command) : Visible c.word.toList := by
  cases c <;> simp [Visible, Command.word]

theorem Command.Typable.visible_words (typable : c.Typable) :
    ∀ word ∈ c.word.toList :: c.operands, Visible word :=
  List.forall_mem_cons.mpr ⟨visible_word c, typable.visible⟩

theorem newline_not_mem_words {words : List (List Char)} (visible : ∀ word ∈ words, Visible word) :
    newline ∉ [' '].intercalate words := fun inside =>
  absurd (le_of_mem_intercalate visible newline inside) (by decide)

/-- The loop reads the lines of a script one by one. -/
theorem fgets_scriptOf (typable : ∀ c ∈ cs, c.Typable) :
    fgets 1024 (scriptOf cs) = cs.map Command.line := by
  induction cs with
  | nil => rfl
  | cons c cs ih =>
    rcases List.forall_mem_cons.mp typable with ⟨first, rest⟩
    have fits := first.fits
    rw [Command.line, lineOf, List.length_append, List.length_singleton] at fits
    have one : pieces 1022 1022 c.line = [c.line] :=
      pieces_short (newline_not_mem_words first.visible_words) (by omega)
    have parts : scriptOf (c :: cs) =
        [' '].intercalate (c.word.toList :: c.operands) ++ newline :: scriptOf cs := by
      rw [scriptOf, List.flatMap_cons, Command.line, lineOf, List.append_assoc]
      rfl
    rw [fgets, parts, pieces_append]
    change pieces 1022 1022 c.line ++ fgets 1024 (scriptOf cs) = _
    rw [one, ih rest]
    rfl

/-- The loop takes the line of a command for the command. -/
theorem readPiece_line (typable : c.Typable) :
    readPiece host ifprint n c.line = exec host n c >>= fun _ => prompt ifprint := by
  have words : wordsOf c.line = c.word.toList :: c.operands := wordsOf_lineOf typable.visible_words
  have inBuffer : upToNul c.line ≠ [] := by
    intro empty
    rw [wordsOf, splitStr2Vec_eq, empty] at words
    cases words
  rw [readPiece_words inBuffer words, dispatch, parse_words typable]

theorem mainLoop_scriptOf (typable : ∀ c ∈ cs, c.Typable) :
    mainLoop host ifprint n (scriptOf cs) =
      cs.forM fun c => exec host n c >>= fun _ => prompt ifprint := by
  unfold mainLoop
  rw [fgets_scriptOf typable]
  induction cs with
  | nil => rfl
  | cons c cs ih =>
    rcases List.forall_mem_cons.mp typable with ⟨first, rest⟩
    change (readPiece host ifprint n c.line >>= fun _ =>
      (cs.map Command.line).forM (readPiece host ifprint n)) = _
    rw [readPiece_line first, ih rest]
    rfl

/-- Without prompts the script does exactly what its commands do one after the other. -/
theorem mainLoop_quietly (typable : ∀ c ∈ cs, c.Typable) :
    mainLoop host true n (scriptOf cs) = execAll host n cs := by
  rw [mainLoop_scriptOf typable]
  clear typable
  induction cs with
  | nil => rfl
  | cons c cs ih =>
    have silent : (exec host n c >>= fun _ => prompt true) = exec host n c := bind_pure _
    change ((exec host n c >>= fun _ => prompt true) >>= fun _ =>
      cs.forM fun c => exec host n c >>= fun _ => prompt true) = _
    rw [silent, ih]
    rfl

end Loop

end UnixProgramming.Sdb
