import UnixProgramming.Sdb.Listing
import UnixProgramming.Sdb.Tiling

/-!
# The program on the screen

`disasm` shows ten instructions. A reader who goes on with the address behind the last one
comes to the end of the program, and has its code: from the entry point on, without a gap,
with the bytes that the program had when it was started.
-/

namespace UnixProgramming.Sdb

open Memory Transition Stateful Text

variable {κ : Type}

section Reading

/-- The value of hexadecimal digits. -/
def hexValue (text : List Char) : Nat := (digits 16 text).foldl (fun n d => 16 * n + d) 0

/-- The address on a line of `print_instruction`, and the bytes between the colon and the tab. -/
def readInstruction (line : String) : Addr × List Byte :=
  let text := line.toList.drop 3
  let cells := ((text.dropWhile (· ≠ ':')).drop 1).takeWhile (· ≠ '\t')
  (BitVec.ofNat 64 (hexValue (text.takeWhile (· ≠ ':'))),
    (runs isspace cells).map fun pair => BitVec.ofNat 8 (hexValue pair))

/-- The address behind the instruction on a line. -/
def behind (line : String) : Addr :=
  (readInstruction line).1 + BitVec.ofNat 64 (readInstruction line).2.length

theorem toList_hexByte (b : Byte) :
    (hexByte b).toList = [Nat.digitChar (b.toNat / 16), Nat.digitChar (b.toNat % 16)] := by
  have high : b.toNat / 16 < 16 := by omega
  have low : b.toNat % 16 < 16 := by omega
  rw [hexByte, String.toList_ofList, Nat.toDigits_of_lt_base high, Nat.toDigits_of_lt_base low]
  rfl

theorem hexByte_digit (b : Byte) : ∀ c ∈ (hexByte b).toList, (digit 16 c).isSome := by
  intro c inside
  rw [toList_hexByte] at inside
  rcases List.mem_cons.mp inside with rfl | inside
  · rw [digit_digitChar le_rfl (by omega)]
    rfl
  · rw [List.mem_singleton.mp inside, digit_digitChar le_rfl (by omega)]
    rfl

theorem hexValue_hexByte (b : Byte) : BitVec.ofNat 8 (hexValue (hexByte b).toList) = b := by
  have value : hexValue (hexByte b).toList = b.toNat := by
    rw [hexValue, toList_hexByte, digits, digit_digitChar le_rfl (by omega), digits,
      digit_digitChar le_rfl (by omega)]
    change 16 * (16 * 0 + b.toNat / 16) + b.toNat % 16 = b.toNat
    omega
  rw [value, BitVec.ofNat_toNat, BitVec.setWidth_eq]

/-- The cells of a line are read as they were written, whatever blanks are behind them. -/
theorem runs_cells {blanks : List Char} (blank : ∀ c ∈ blanks, isspace c = true) (bytes : List Byte) :
    runs isspace ((bytes.flatMap fun b => (hexByte b).toList ++ [' ']) ++ blanks) =
      bytes.map fun b => (hexByte b).toList := by
  induction bytes with
  | nil => exact runs_eq_nil.mpr blank
  | cons b bytes ih =>
    have word : (hexByte b).toList ≠ [] := by
      rw [toList_hexByte]
      exact List.cons_ne_nil _ _
    have inner : ∀ c ∈ (hexByte b).toList, isspace c = false :=
      fun c inside => not_isspace_of_digit (hexByte_digit b c inside)
    rw [List.flatMap_cons, List.append_assoc, List.append_assoc, List.singleton_append,
      runs_word_append word inner rfl, ih, List.map_cons]

/-- `print_instruction` can be read back. -/
theorem readInstruction_printInstruction (i : Instruction1) :
    readInstruction (printInstruction i) = (i.addr, i.bytes.take i.size) := by
  let cells := (i.bytes.take i.size).flatMap fun b => (hexByte b).toList ++ [' ']
  let blanks (n : Nat) := List.replicate n ' '
  have line : ∃ n rest, (printInstruction i).toList.drop 3 =
      Nat.toDigits 16 i.addr.toNat ++ ':' :: ((' ' :: (cells ++ blanks n)) ++ '\t' :: rest) := by
    refine ⟨32 - (String.join ((i.bytes.take i.size).map fun b => hexByte b ++ " ")).length,
      (padRight 10 i.opr ++ i.opnd ++ "\n").toList, ?_⟩
    simp [printInstruction, padRight, hex, cells, blanks]
    rw [← List.map_take, List.flatMap_map]
    simp
  have colon : ∀ c ∈ Nat.toDigits 16 i.addr.toNat, decide (c ≠ ':') = true := by
    intro c inside
    rw [decide_eq_true_eq]
    rintro rfl
    exact absurd ((spells_hex i.addr.toNat).digit ':' inside) (by decide)
  have tab (n : Nat) : ∀ c ∈ ' ' :: (cells ++ blanks n), decide (c ≠ '\t') = true := by
    intro c inside
    rw [decide_eq_true_eq]
    rintro rfl
    rcases List.mem_append.mp ((List.mem_cons.mp inside).resolve_left (by decide)) with cell | fill
    · rcases List.mem_flatMap.mp cell with ⟨b, -, here⟩
      rcases List.mem_append.mp here with digit | last
      · exact absurd (hexByte_digit b _ digit) (by decide)
      · exact absurd (List.mem_singleton.mp last) (by decide)
    · exact absurd (List.eq_of_mem_replicate fill) (by decide)
  rcases line with ⟨n, rest, line⟩
  have addr : BitVec.ofNat 64 (hexValue (Nat.toDigits 16 i.addr.toNat)) = i.addr := by
    rw [hexValue, (spells_hex i.addr.toNat).value, BitVec.ofNat_toNat, BitVec.setWidth_eq]
  have pairs : runs isspace (' ' :: (cells ++ blanks n)) =
      (i.bytes.take i.size).map fun b => (hexByte b).toList := by
    rw [runs_sep rfl]
    exact runs_cells (fun c inside => by rw [List.eq_of_mem_replicate inside]; rfl) _
  rw [readInstruction, line, List.takeWhile_append_of_pos colon, List.dropWhile_append_of_pos colon,
    List.takeWhile_cons_of_neg (by decide), List.dropWhile_cons_of_neg (by decide), List.append_nil,
    List.drop_succ_cons, List.drop_zero, List.takeWhile_append_of_pos (tab n),
    List.takeWhile_cons_of_neg (by decide), List.append_nil, addr, pairs, List.map_map]
  congr 1
  exact (List.map_congr_left fun b _ => hexValue_hexByte b).trans (List.map_id _)

/-- The bytes on the lines, one line after the other. -/
def codeOn (lines : List String) : List Byte := lines.flatMap fun line => (readInstruction line).2

/-- Each line starts behind the one above it. -/
def Consecutive : Addr → List String → Prop
  | _, [] => True
  | addr, line :: rest => (readInstruction line).1 = addr ∧ Consecutive (behind line) rest

/-- The lines show the code from `first` on up to `stop`, or over it by a part of the last instruction. -/
structure ShowsCode (mem : Addr → Option Byte) (first stop : Addr) (lines : List String) : Prop where
  consecutive : Consecutive first lines
  stored : Stored mem first 0 (codeOn lines)
  covers : stop.toNat ≤ first.toNat + (codeOn lines).length
  overlap : lines = [] ∨ first.toNat + (codeOn lines).length < stop.toNat + 15

end Reading

section Decoded

variable {host : Host κ} {mem : Addr → Option Byte} {stop addr : Addr} {first : Nat}
  {page rest new : List Instruction1} {i : Instruction1}

/-- Where every window can be decoded, there is an instruction up to the end. -/
theorem Decodes.more (skipdata : Skipdata host) (decodes : Decodes host mem stop addr new)
    (low : first ≤ addr.toNat) (readable : ReadableRange mem first (stop.toNat + 64)) (more : addr < stop) :
    ∃ i rest, new = i :: rest ∧ i.addr = addr ∧ i.bytes.length = i.size ∧ 1 ≤ i.size ∧ i.size ≤ 15 ∧
      Stored mem addr 0 i.bytes ∧ (addr + BitVec.ofNat 64 i.size).toNat = addr.toNat + i.size ∧
      Decodes host mem stop (addr + BitVec.ofNat 64 i.size) rest := by
  have below := BitVec.lt_def.mp more
  have space := readable.fits (by omega)
  rcases skipdata.insn (by omega) (fun i hi => readable.at low (by omega)) with
    ⟨insn, known, some_byte, short, length, stored⟩
  cases decodes with
  | done ended => exact absurd more ended
  | undecodable _ unknown => cases unknown.symm.trans known
  | next _ found later =>
    cases known.symm.trans found
    refine ⟨_, _, rfl, rfl, length, some_byte, short, stored, ?_, later⟩
    change (addr + BitVec.ofNat 64 insn.size).toNat = addr.toNat + insn.size
    rw [BitVec.toNat_add, BitVec.toNat_ofNat]
    omega

theorem behind_printInstruction (length : i.bytes.length = i.size) :
    behind (printInstruction i) = i.addr + BitVec.ofNat 64 i.size := by
  rw [behind, readInstruction_printInstruction, ← length, List.take_length]

/-- What is decoded from an address on shows the code from there on. -/
theorem Decodes.showsCode (skipdata : Skipdata host) (decodes : Decodes host mem stop addr new)
    (low : first ≤ addr.toNat) (readable : ReadableRange mem first (stop.toNat + 64)) :
    ShowsCode mem addr stop (new.map printInstruction) := by
  induction new generalizing addr with
  | nil =>
    have ended : ¬ addr < stop := fun more => by
      rcases decodes.more skipdata low readable more with ⟨i, rest, none, -⟩
      cases none
    have nothing : Stored mem addr 0 [] := fun j b at_j => by cases at_j
    exact ⟨trivial, nothing, Nat.not_lt.mp fun below => ended (BitVec.lt_def.mpr below), .inl rfl⟩
  | cons i new ih =>
    have more : addr < stop := by
      cases decodes with
      | next more => exact more
    rcases decodes.more skipdata low readable more with
      ⟨_, _, same, here, length, some_byte, short, stored, after, rest⟩
    cases same
    have later := ih rest (by omega)
    have below := BitVec.lt_def.mp more
    have read : readInstruction (printInstruction i) = (i.addr, i.bytes) := by
      rw [readInstruction_printInstruction, ← length, List.take_length]
    have code : codeOn ((i :: new).map printInstruction) = i.bytes ++ codeOn (new.map printInstruction) := by
      rw [List.map_cons, codeOn, List.flatMap_cons, read, codeOn]
    refine ⟨⟨by rw [read, here], ?_⟩, ?_, ?_, .inr ?_⟩
    · rw [behind_printInstruction length, here]
      exact later.consecutive
    · rw [code]
      refine stored_append.mpr ⟨stored, ?_⟩
      rw [Nat.zero_add, length]
      exact (stored_add i.size).mp later.stored
    · have covers := later.covers
      rw [code, List.length_append]
      omega
    · rw [code, List.length_append]
      rcases later.overlap with none | overlap
      · rw [none]
        change addr.toNat + (i.bytes.length + 0) < _
        omega
      · omega

/-- Behind a page the rest is decoded. -/
theorem Decodes.after_page (skipdata : Skipdata host) (decodes : Decodes host mem stop addr (page ++ rest))
    (low : first ≤ addr.toNat) (readable : ReadableRange mem first (stop.toNat + 64))
    (last : page.getLast? = some i) :
    ∃ next, behind (printInstruction i) = next ∧ first ≤ next.toNat ∧ Decodes host mem stop next rest := by
  induction page generalizing addr with
  | nil => cases last
  | cons k page ih =>
    have more : addr < stop := by
      cases decodes with
      | next more => exact more
    rcases decodes.more skipdata low readable more with
      ⟨_, _, same, here, length, some_byte, short, stored, after, later⟩
    cases same
    cases page with
    | nil =>
      have only : k = i := Option.some.inj last
      rw [← only, behind_printInstruction length, here]
      exact ⟨_, rfl, by omega, later⟩
    | cons m page =>
      rw [List.getLast?_cons_cons] at last
      exact ih later (by omega) last

end Decoded

section Pages

/-- Reading on from an address, page after page. Other commands in between do not matter as
long as the program is there. -/
inductive Paged (host : Host κ) (stop : Addr) : World κ → Addr → List String → Prop where
  | done {w addr} : ¬ addr < stop → Paged host stop w addr []
  | page {w v v' addr cs page line rest} : addr < stop →
      Run (fun cmd w w' => Step host cmd w w' ∧ w'.info.state = .running) cs w v →
      Step host (.disasm addr) v v' → v'.said = page.reverse ++ v.said → page.getLast? = some line →
      Paged host stop v' (behind line) rest → Paged host stop w addr (page ++ rest)

variable {host : Host κ} {w w' v : World κ} {old new before after : List Instruction1} {cmd : Command}
  {cs : List Command} {mem : Addr → Option Byte} {stop addr : Addr} {first : Nat} {lines : List String}

/-- The running program has its own code in the list, and no earlier program a part of it. -/
structure OnDisplay (host : Host κ) (w : World κ) (old new : List Instruction1) : Prop where
  tidy : w.Tidy
  running : w.info.state = .running
  listed : w.origInstructions = old ++ new
  distinct : new.Pairwise fun i j => i.addr ≠ j.addr
  apart : ∀ i ∈ new, ¬ Recorded old i.addr

/-- No command changes this while the program is there. -/
theorem OnDisplay.step (h : OnDisplay host w old new) (step : Step host cmd w w')
    (running : w'.info.state = .running) : OnDisplay host w' old new := by
  refine ⟨step.tidy h.tidy, running, ?_, h.distinct, h.apart⟩
  rcases step.program h.tidy running with ⟨-, -, -, -, same⟩ | ⟨-, loaded, -⟩
  · rw [same, h.listed]
  · cases h.running.symm.trans loaded

/-- `disasm` shows the rest of the program from one of its instructions on, ten of them. -/
theorem OnDisplay.shows (h : OnDisplay host w old (before ++ after)) (opened : host.csOpen = true)
    {i : Instruction1} (head : after.head? = some i) :
    Shows host (.disasm i.addr) w ((after.take 10).map printInstruction) := by
  cases after with
  | nil => cases head
  | cons j after =>
    have only : j = i := Option.some.inj head
    subst only
    have split : w.origInstructions = (old ++ before) ++ j :: after := by rw [h.listed, List.append_assoc]
    refine disasm_shows h.running opened split fun k earlier same => ?_
    rcases List.mem_append.mp earlier with older | here
    · exact h.apart j (by simp) ⟨k, older, same⟩
    · exact (List.pairwise_append.mp h.distinct).2.2 k here j List.mem_cons_self same

theorem Step.disasm_running (tidy : w.Tidy) (step : Step host (.disasm addr) w w')
    (running : w.info.state = .running) : w'.info.state = .running := by
  cases step.outcome tidy with
  | quiet same => rw [same, running]

/-- The pages that are read from an instruction on show the rest of the program, -/
theorem Paged.lines_eq (paged : Paged host stop w addr lines) (skipdata : Skipdata host)
    (h : OnDisplay host w old (before ++ after)) (decodes : Decodes host mem stop addr after)
    (low : first ≤ addr.toNat) (readable : ReadableRange mem first (stop.toNat + 64)) :
    lines = after.map printInstruction := by
  induction paged generalizing before after with
  | done ended =>
    cases decodes with
    | done => rfl
    | undecodable => rfl
    | next more => exact absurd more ended
  | @page w v v' addr cs page line rest more run step said last onwards ih =>
    rcases decodes.more skipdata low readable more with ⟨i, later, rfl, here, -⟩
    have h : OnDisplay host v old (before ++ i :: later) :=
      run.invariant (I := fun w => OnDisplay host w old _)
        (fun cmd u u' listed ⟨step, running⟩ => listed.step step running) h
    have shown : Shows host (.disasm i.addr) v (((i :: later).take 10).map printInstruction) :=
      h.shows skipdata.opened rfl
    rw [here] at shown
    have same := Shows.unique ⟨v', step, said⟩ shown
    subst same
    rw [List.getLast?_map] at last
    rcases Option.map_eq_some_iff.mp last with ⟨k, at_end, rfl⟩
    rw [← List.take_append_drop 10 (i :: later)] at decodes
    rcases decodes.after_page skipdata low readable at_end with ⟨next, there, low, decodes⟩
    subst there
    have h' := h.step step (step.disasm_running h.tidy h.running)
    rw [← List.take_append_drop 10 (i :: later), ← List.append_assoc] at h'
    rw [ih h' decodes low, ← List.map_append, List.take_append_drop]

/-- and there are such pages. -/
theorem OnDisplay.paged (h : OnDisplay host w old (before ++ after)) (skipdata : Skipdata host)
    (decodes : Decodes host mem stop addr after) (low : first ≤ addr.toNat)
    (readable : ReadableRange mem first (stop.toNat + 64)) : ∃ lines, Paged host stop w addr lines := by
  induction left : after.length using Nat.strong_induction_on generalizing w addr before after with
  | _ d ih =>
    subst left
    by_cases more : addr < stop
    swap
    · exact ⟨[], .done more⟩
    rcases decodes.more skipdata low readable more with ⟨i, later, rfl, here, -⟩
    have shown : Shows host (.disasm i.addr) w (((i :: later).take 10).map printInstruction) :=
      h.shows skipdata.opened rfl
    rw [here] at shown
    rcases shown with ⟨w', step, said⟩
    have some_line : ((i :: later).take 10).getLast? ≠ none := by simp
    rcases Option.ne_none_iff_exists'.mp some_line with ⟨k, at_end⟩
    have h' := h.step step (step.disasm_running h.tidy h.running)
    rw [← List.take_append_drop 10 (i :: later)] at decodes
    rw [← List.take_append_drop 10 (i :: later), ← List.append_assoc] at h'
    rcases decodes.after_page skipdata low readable at_end with ⟨next, there, low, decodes⟩
    subst there
    have shorter : ((i :: later).drop 10).length < (i :: later).length := by
      rw [List.length_drop, List.length_cons]
      omega
    rcases ih _ shorter h' decodes low rfl with ⟨lines, onwards⟩
    exact ⟨_, .page more .nil step said (by rw [List.getLast?_map, at_end]; rfl) onwards⟩

end Pages

section Session

variable {host : Host κ} {w w' : World κ} {cmd : Command} {cs : List Command}

/-- What `start` has recorded stays in the list, with nothing of it in front. -/
theorem OnDisplay.of_run (run : Run (fun cmd w w' => Step host cmd w w' ∧ Fresh host w cmd) cs (World.init host) w)
    (running : w.info.state = .running) (opened : host.csOpen = true) {prog : Program κ}
    (found : host.exec w.info.path = some prog) : ∃ old new, OnDisplay host w old new ∧
      Decodes host prog.image.mem (w.info.entry + w.info.size) w.info.entry new := by
  have kept := run.invariant
    (I := fun w => w.Tidy ∧ (w.info.state = .running → ∃ old new, OwnCode host w old new ∧
      ∀ i ∈ new, ¬ Recorded old i.addr))
    (fun cmd v v' ⟨tidy, kept⟩ ⟨step, fresh⟩ => ⟨step.tidy tidy, fun running => by
      rcases step.apart_iff tidy kept running with ⟨old, new, own, exactly⟩
      exact ⟨old, new, own, exactly.mpr fresh⟩⟩)
    ⟨World.init_tidy host, fun running => by cases running⟩
  rcases kept.2 running with ⟨old, new, ⟨listed, prog', found', decodes, -⟩, apart⟩
  cases found.symm.trans found'
  have decoded := decodes opened
  exact ⟨old, new, ⟨kept.1, running, listed, decoded.distinct, apart⟩, decoded⟩

/-- At every time the program can be read from its entry point to its end, and what the lines
show is its code as it was started, whatever commands are given between the pages. -/
theorem pages_show (run : Run (fun cmd w w' => Step host cmd w w' ∧ Fresh host w cmd) cs (World.init host) w)
    (running : w.info.state = .running) (skipdata : Skipdata host) {prog : Program κ}
    (found : host.exec w.info.path = some prog)
    (readable : ReadableRange prog.image.mem w.info.entry.toNat
      (w.info.entry.toNat + w.info.size.toNat + 64)) :
    (∃ lines, Paged host (w.info.entry + w.info.size) w w.info.entry lines) ∧
      ∀ lines, Paged host (w.info.entry + w.info.size) w w.info.entry lines →
        ShowsCode prog.image.mem w.info.entry (w.info.entry + w.info.size) lines := by
  rcases OnDisplay.of_run run running skipdata.opened found with ⟨old, new, listed, decodes⟩
  have space := readable.fits (by omega)
  have stop : (w.info.entry + w.info.size).toNat = w.info.entry.toNat + w.info.size.toNat := by
    rw [BitVec.toNat_add]
    omega
  rw [← stop] at readable
  have whole : OnDisplay host w old ([] ++ new) := listed
  refine ⟨whole.paged skipdata decodes le_rfl readable, fun lines paged => ?_⟩
  rw [paged.lines_eq skipdata whole decodes le_rfl readable]
  exact decodes.showsCode skipdata le_rfl readable

end Session

section Leave

open Sample

theorem pages_show_leave : ∃ w lines, Reachable (host leave) w ∧ w.info.state = .running ∧
    Paged (host leave) 0x402000 w 0x401ff9 lines ∧ ShowsCode (image leave).mem 0x401ff9 0x402000 lines := by
  have summary : ((session (host leave) 40 [.load "leave"]).bind fun v =>
      (next? (host leave) 40 .start v).map fun w => (v.origInstructions.isEmpty, w.info.state,
        w.info.entry, w.info.size, w.info.path)) =
      some (true, .running, 0x401ff9, 7, "leave") := by
    decide +kernel
  rcases Option.bind_eq_some_iff.mp summary with ⟨v, ended, rest⟩
  rcases Option.map_eq_some_iff.mp rest with ⟨w, begun, facts⟩
  simp only [Prod.mk.injEq, List.isEmpty_iff] at facts
  rcases facts with ⟨empty, running, entry, size, path⟩
  have first : Run (fun cmd w w' => Step (host leave) cmd w w' ∧ Fresh (host leave) w cmd)
      [.load "leave"] (World.init (host leave)) v := by
    refine (run_of_session ended).mono fun cmd member w w' step => ⟨step, fun begins => ?_⟩
    rw [List.mem_singleton.mp member] at begins
    simp at begins
  have step : Step (host leave) .start v w := ⟨40, exec_of_next? begun⟩
  have fresh : Fresh (host leave) v .start := by
    intro _ _ _ _ _ _ _ i _ ⟨j, older, _⟩
    rw [empty] at older
    cases older
  have found : (host leave).exec w.info.path = some (sample leave) := by rw [path]; rfl
  have readable : ReadableRange (image leave).mem w.info.entry.toNat
      (w.info.entry.toNat + w.info.size.toNat + 64) := by
    rw [entry, size]
    intro a low high
    change 0x401ff9 ≤ a at low
    change a < 0x401ff9 + 7 + 64 at high
    have number : (BitVec.ofNat 64 a).toNat = a := by
      rw [BitVec.toNat_ofNat]
      omega
    have mapped : BitVec.ofNat 64 a ∈ window 0x401000 0x2000 := by
      have page : (0x401000 : Addr).toNat = 0x401000 := rfl
      rw [mem_window, BitVec.toNat_sub, number, page]
      omega
    refine ⟨BitVec.ofNat 64 a, number, ?_⟩
    simp only [image, mapped, if_true, Option.isSome_some]
  rcases pages_show (first.snoc ⟨step, fresh⟩) running (Sample.skipdata leave) found readable with
    ⟨⟨lines, paged⟩, shows⟩
  have code := shows lines paged
  rw [entry, size] at paged code
  exact ⟨w, lines, ⟨_, (run_of_session ended).snoc step⟩, running, paged, code⟩

end Leave

end UnixProgramming.Sdb
