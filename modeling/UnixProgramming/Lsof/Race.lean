import UnixProgramming.Foundation.Stateful
import UnixProgramming.Lsof.Scan

/-!
# Processes that go away during the scan

The scan gets through with every row's own data exactly when, behind the one call that a
collector checks, all its calls succeed.
-/

namespace UnixProgramming.Lsof

open Stateful Text

section Steady

/-- If the link is accessible, it can be read and its file looked at. -/
def Link.Steady (link : Link) : Prop := link.access → link.readlink.isSome ∧ link.stat.isSome

def FdEntry.Steady (e : FdEntry) : Prop := isNumber e.name → e.readlink.isSome ∧ e.stat.isSome

def Outcome.MapsSteady (o : Outcome) : Prop :=
  o.mapsAccess → ∀ word ∈ mappedWords o, (o.mapsStat word).isSome

def Outcome.FdSteady (o : Outcome) : Prop :=
  o.fdAccess ∧ ∃ entries, o.opendir = some entries ∧ ∀ e ∈ entries, e.Steady

/-- The calls for a process that the collectors rely on succeed. -/
structure Outcome.Steady (o : Outcome) : Prop where
  passwd : (o.getpwuid (atoi (getUid o))).isSome
  cwd : o.cwd.Steady
  root : o.root.Steady
  exe : o.exe.Steady
  maps : o.MapsSteady
  fd : o.FdSteady

/-- The row's TYPE and NODE come from the call made for the row. -/
def Row.Own (row : Row) : Prop := ∀ call ∈ row.filled, call = row.asked

/-- They are those of the file that the row shows. -/
def Row.OfFile (row : Row) : Prop := ∀ call ∈ row.filled, call.1 = row.file

end Steady

section Links

variable {fd pid : String} {link : Link} {row : Row}

theorem terminated_ok {readlink : Option String} {name : String} :
    terminated readlink = .ok name ↔ readlink = some name := by
  cases readlink <;> simp [terminated]

theorem filledIn_ok {sb : Option Filled} {seen : Filled} :
    filledIn sb = .ok seen ↔ sb = some seen := by
  cases sb <;> simp [filledIn]

theorem getLink_ok : (∃ row, getLink fd pid link = .ok row) ↔ link.Steady := by
  unfold getLink Link.Steady
  cases link.access with
  | false => simp [pure, Except.pure]
  | true =>
    cases link.readlink <;> cases link.stat <;>
      simp [terminated, filledIn, bind, Except.bind, pure, Except.pure]

theorem getLink_own (run : getLink fd pid link = .ok row) : row.Own ∧ row.OfFile := by
  unfold getLink at run
  split at run
  · obtain ⟨name, _, rest⟩ := except_bind_ok.mp run
    obtain ⟨seen, filled, collected⟩ := except_bind_ok.mp rest
    obtain ⟨sb, _, rfl⟩ := Option.map_eq_some_iff.mp (filledIn_ok.mp filled)
    cases collected
    constructor
    · rintro call ⟨⟩
      rfl
    · rintro call ⟨⟩
      rfl
  · cases run
    constructor <;> rintro call ⟨⟩

end Links

section Mem

variable {pid word : String} {o : Outcome} {i : Nat} {result rows : List Row}

theorem pushMem_ok : pushMem pid o word result = .ok rows ↔
    ∃ sb, o.mapsStat word = some sb ∧ rows = result ++ [memRow pid word ⟨sb, memPath pid, 0⟩] := by
  unfold pushMem
  cases o.mapsStat word with
  | none => simp [filledIn, bind, Except.bind]
  | some sb => simp [filledIn, bind, Except.bind, pure, Except.pure, eq_comm]

/-- The loop ends behind the row that it has appended. -/
theorem searchMem_last (sb : Filled) :
    searchMem pid o word result.length (result ++ [memRow pid word sb]) =
      .ok (result ++ [memRow pid word sb]) := by
  rw [searchMem]
  simp [memRow]

theorem searchMem_eq : searchMem pid o word i result =
    if word ∈ (result.drop i).map (·.desc.name) ∨ result.length ≤ i then .ok result
    else pushMem pid o word result := by
  induction i, result using searchMem.induct pid word with
  | case1 i result h found =>
    have listed : word ∈ (result.drop i).map (·.desc.name) := by
      rw [List.drop_eq_getElem_cons h, List.map_cons, found]
      exact List.mem_cons_self
    rw [searchMem, dif_pos h, if_pos found, if_pos (.inl listed)]
  | case2 result h other =>
    have past : ¬ (word ∈ (result.drop (result.length - 1)).map (·.desc.name) ∨
        result.length ≤ result.length - 1) := by
      rw [List.drop_eq_getElem_cons h, Nat.sub_add_cancel (by omega), List.drop_length]
      simp [Ne.symm other]
      omega
    rw [searchMem, dif_pos h, if_neg other, if_pos rfl, if_neg past, pushMem,
      Nat.sub_add_cancel (by omega)]
    simp only [searchMem_last]
    rfl
  | case3 i result h other notLast ih =>
    have next : (word ∈ (result.drop (i + 1)).map (·.desc.name) ∨ result.length ≤ i + 1) ↔
        (word ∈ (result.drop i).map (·.desc.name) ∨ result.length ≤ i) := by
      have here : ¬ result.length ≤ i := by omega
      have more : ¬ result.length ≤ i + 1 := by omega
      rw [or_iff_left here, or_iff_left more, List.drop_eq_getElem_cons h, List.map_cons,
        List.mem_cons, or_iff_right (Ne.symm other)]
    rw [searchMem, dif_pos h, if_neg other, if_neg notLast, ih, if_congr next rfl rfl]
  | case4 i result h =>
    rw [searchMem, dif_neg h, if_pos (.inr (Nat.le_of_not_lt h))]

/-- A word gets a row unless it has one. -/
theorem addWord_eq : addWord pid o result word =
    if word ∈ result.map (·.desc.name) then .ok result else pushMem pid o word result := by
  cases result with
  | nil =>
    cases sb : o.mapsStat word with
    | none => simp [addWord, pushMem, filledIn, sb, bind, Except.bind]
    | some sb' =>
      simp [addWord, pushMem, filledIn, sb, bind, Except.bind, pure, Except.pure, searchMem_eq, memRow]
  | cons row result =>
    have nonempty : ¬ (row :: result).length ≤ 0 := by simp
    change searchMem pid o word 0 (row :: result) = _
    rw [searchMem_eq, List.drop_zero, if_congr (or_iff_left nonempty) rfl rfl]

theorem addWord_ok : addWord pid o result word = .ok rows ↔
    (word ∈ result.map (·.desc.name) ∧ rows = result) ∨
      (word ∉ result.map (·.desc.name) ∧ ∃ sb, o.mapsStat word = some sb ∧
        rows = result ++ [memRow pid word ⟨sb, memPath pid, 0⟩]) := by
  rw [addWord_eq]
  by_cases listed : word ∈ result.map (·.desc.name)
  · simp [listed, eq_comm]
  · rw [if_neg listed, pushMem_ok]
    simp [listed]

theorem names_append {sb : Filled} {w : String} :
    w ∈ (result ++ [memRow pid word sb]).map (·.desc.name) ↔
      w ∈ result.map (·.desc.name) ∨ w = word := by
  rw [List.map_append, List.mem_append, List.map_singleton, List.mem_singleton]
  rfl

theorem addWords_ok {ws : List String} : (∃ rows, ws.foldlM (addWord pid o) result = .ok rows) ↔
    ∀ w ∈ ws, w ∈ result.map (·.desc.name) ∨ (o.mapsStat w).isSome := by
  induction ws generalizing result with
  | nil => simp [pure, Except.pure]
  | cons w ws ih =>
    simp only [List.foldlM_cons, except_bind_ok, addWord_ok]
    constructor
    · rintro ⟨rows, next, first, rest⟩
      have later := ih.mp ⟨rows, rest⟩
      rcases first with ⟨listed, rfl⟩ | ⟨_, sb, filled, rfl⟩
      · exact List.forall_mem_cons.mpr ⟨.inl listed, later⟩
      · refine List.forall_mem_cons.mpr ⟨.inr (by simp [filled]), ?_⟩
        intro w' later'
        rcases later w' later' with named | seen
        · rcases names_append.mp named with old | rfl
          · exact .inl old
          · exact .inr (by simp [filled])
        · exact .inr seen
    · intro all
      obtain ⟨first, later⟩ := List.forall_mem_cons.mp all
      by_cases listed : w ∈ result.map (·.desc.name)
      · obtain ⟨rows, rest⟩ := ih.mpr later
        exact ⟨rows, result, .inl ⟨listed, rfl⟩, rest⟩
      · obtain ⟨sb, filled⟩ := Option.isSome_iff_exists.mp (first.resolve_left listed)
        have pushed : ∀ w' ∈ ws,
            w' ∈ (result ++ [memRow pid w ⟨sb, memPath pid, 0⟩]).map (·.desc.name) ∨
              (o.mapsStat w').isSome :=
          fun w' member => (later w' member).imp_left fun old => names_append.mpr (.inl old)
        obtain ⟨rows, rest⟩ := ih.mpr pushed
        exact ⟨rows, _, .inr ⟨listed, sb, filled, rfl⟩, rest⟩

/-- A row for a word of `maps`, filled in for `maps` itself. -/
def Row.IsMem (pid : String) (row : Row) : Prop :=
  row.file = row.desc.name ∧ row.asked = (memPath pid, 0) ∧ row.filled = some (memPath pid, 0)

theorem addWords_rows {ws : List String} (run : ws.foldlM (addWord pid o) result = .ok rows) :
    (∀ row ∈ rows, row ∈ result ∨ row.IsMem pid) ∧
      ∀ w, w ∈ rows.map (·.desc.name) ↔ w ∈ result.map (·.desc.name) ∨ w ∈ ws := by
  induction ws generalizing result with
  | nil =>
    cases run
    exact ⟨fun row member => .inl member, fun w => by simp⟩
  | cons w ws ih =>
    rw [List.foldlM_cons, except_bind_ok] at run
    obtain ⟨next, first, rest⟩ := run
    obtain ⟨kind, names⟩ := ih rest
    rcases addWord_ok.mp first with ⟨listed, rfl⟩ | ⟨_, sb, _, rfl⟩
    · refine ⟨kind, ?_⟩
      intro w'
      rw [names, List.mem_cons]
      constructor
      · rintro (old | later)
        · exact .inl old
        · exact .inr (.inr later)
      · rintro (old | rfl | later)
        · exact .inl old
        · exact .inl listed
        · exact .inr later
    · constructor
      · intro row member
        rcases kind row member with before | mem
        · rcases List.mem_append.mp before with old | new
          · exact .inl old
          · rw [List.mem_singleton.mp new]
            exact .inr ⟨rfl, rfl, rfl⟩
        · exact .inr mem
      · intro w'
        rw [names, names_append, or_assoc, List.mem_cons]

end Mem

section Fd

variable {pid : String} {rows : List Row}

/-- Reading one entry. -/
theorem readFds_cons {e : FdEntry} {es : List FdEntry} {k : Nat} {sb : Option Filled}
    (number : isNumber e.name) :
    readFds pid (e :: es) k sb = .ok rows ↔ ∃ name seen rest,
      e.readlink = some name ∧
      (e.stat.map fun st => Filled.mk st ("/proc/" ++ pid ++ "/fd/" ++ e.name, k)).or sb = some seen ∧
      readFds pid es (k + 1) (some seen) = .ok rest ∧
      rows = ⟨⟨getFdType e.name e.fdinfo, getType seen.stat, toString seen.stat.ino, name⟩,
        "/proc/" ++ pid ++ "/fd/" ++ e.name, ("/proc/" ++ pid ++ "/fd/" ++ e.name, k),
        some seen.call⟩ :: rest := by
  rw [readFds, if_pos number]
  simp only [except_bind_ok, terminated_ok, filledIn_ok]
  constructor
  · rintro ⟨name, link, seen, filled, rest, later, collected⟩
    rw [filled] at later
    cases collected
    exact ⟨name, seen, rest, link, filled, later, rfl⟩
  · rintro ⟨name, seen, rest, link, filled, later, rfl⟩
    rw [← filled] at later
    exact ⟨name, link, seen, filled, rest, later, rfl⟩

/-- A structure left over from an earlier entry is not the entry's own. -/
theorem readFds_own {es : List FdEntry} {k : Nat} {sb : Option Filled}
    (earlier : ∀ f ∈ sb, f.call.2 < k) :
    (∃ rows, readFds pid es k sb = .ok rows ∧ ∀ row ∈ rows, row.Own) ↔ ∀ e ∈ es, e.Steady := by
  induction es generalizing k sb with
  | nil => simp [readFds]
  | cons e es ih =>
    rw [List.forall_mem_cons]
    by_cases number : isNumber e.name
    · simp only [readFds_cons number]
      constructor
      · rintro ⟨_, ⟨name, seen, rest, link, filled, later, rfl⟩, own⟩
        obtain ⟨ownFirst, ownRest⟩ := List.forall_mem_cons.mp own
        have here : seen.call.2 = k := by rw [ownFirst _ rfl]
        have next : ∀ f ∈ some seen, f.call.2 < k + 1 := by
          rintro f ⟨⟩
          omega
        refine ⟨fun _ => ⟨by simp [link], ?_⟩, (ih next).mp ⟨rest, later, ownRest⟩⟩
        cases st : e.stat with
        | none =>
          have old := earlier seen (by simpa [st] using filled)
          omega
        | some st' => rfl
      · rintro ⟨steady, later⟩
        obtain ⟨hasName, hasStat⟩ := steady number
        obtain ⟨name, link⟩ := Option.isSome_iff_exists.mp hasName
        obtain ⟨st, looked⟩ := Option.isSome_iff_exists.mp hasStat
        have next : ∀ f ∈ some (Filled.mk st ("/proc/" ++ pid ++ "/fd/" ++ e.name, k)),
            f.call.2 < k + 1 := by
          rintro f ⟨⟩
          exact Nat.lt_succ_self k
        obtain ⟨rest, run, own⟩ := (ih next).mpr later
        refine ⟨_, ⟨name, _, rest, link, by rw [looked]; rfl, run, rfl⟩, ?_⟩
        refine List.forall_mem_cons.mpr ⟨?_, own⟩
        rintro call ⟨⟩
        rfl
    · have skipped : e.Steady := fun yes => absurd yes number
      have next : ∀ f ∈ sb, f.call.2 < k + 1 := fun f member => Nat.lt_succ_of_lt (earlier f member)
      rw [and_iff_right skipped, ← ih next, readFds, if_neg number]

theorem readFds_ofFile {es : List FdEntry} {k : Nat} {sb : Option Filled}
    (run : readFds pid es k sb = .ok rows) : ∀ row ∈ rows, row.asked.1 = row.file := by
  induction es generalizing k sb rows with
  | nil =>
    cases run
    simp
  | cons e es ih =>
    by_cases number : isNumber e.name
    · obtain ⟨name, seen, rest, _, _, later, rfl⟩ := (readFds_cons number).mp run
      exact List.forall_mem_cons.mpr ⟨rfl, ih later⟩
    · rw [readFds, if_neg number] at run
      exact ih run

end Fd

section Process

variable {pid : String} {o : Outcome} {rows : List Row}

theorem getMem_ok : (∃ rows, getMem pid o = .ok rows) ↔ o.MapsSteady := by
  unfold getMem Outcome.MapsSteady
  by_cases access : o.mapsAccess
  · simp [access, addWords_ok]
  · simp [access]

theorem getMem_rows (run : getMem pid o = .ok rows) : (∀ row ∈ rows, row.IsMem pid) ∧
    ∀ w, w ∈ rows.map (·.desc.name) ↔ o.mapsAccess ∧ w ∈ mappedWords o := by
  unfold getMem at run
  by_cases access : o.mapsAccess
  · rw [if_pos access] at run
    simpa [access] using addWords_rows run
  · rw [if_neg access] at run
    cases run
    simp [access]

theorem Row.IsMem.own {row : Row} (mem : row.IsMem pid) : row.Own := by
  obtain ⟨_, asked, filled⟩ := mem
  intro call member
  rw [filled] at member
  rw [asked]
  exact (Option.mem_some_iff.mp member).symm

theorem Row.IsMem.ofFile_iff {row : Row} (mem : row.IsMem pid) :
    row.OfFile ↔ row.desc.name = memPath pid := by
  obtain ⟨file, _, filled⟩ := mem
  rw [Row.OfFile, filled, file]
  simp [eq_comm]

theorem getFd_own : (∃ rows, getFd pid o = .ok rows ∧ ∀ row ∈ rows, row.Own) ↔ o.FdSteady := by
  unfold getFd Outcome.FdSteady
  by_cases access : o.fdAccess
  · cases listing : o.opendir with
    | none => simp [access]
    | some entries =>
      simp only [access, if_true, Option.some.injEq, exists_eq_left', true_and]
      exact readFds_own (by simp)
  · simp [access, filledIn, bind, Except.bind]

theorem getFd_ofFile (run : getFd pid o = .ok rows) : ∀ row ∈ rows, row.asked.1 = row.file := by
  unfold getFd at run
  by_cases access : o.fdAccess
  · rw [if_pos access] at run
    split at run
    · exact readFds_ofFile run
    · cases run
  · rw [if_neg access] at run
    cases run

theorem getUsername_ok {uid name : String} :
    getUsername o uid = .ok name ↔ o.getpwuid (atoi uid) = some name := by
  unfold getUsername
  cases o.getpwuid (atoi uid) <;> simp

/-- A process is collected with good rows when each collector comes back with good rows. -/
theorem collect_ok {P : Row → Prop} :
    (∃ r, collect pid o = .ok r ∧ ∀ row ∈ r.2, P row) ↔ (o.getpwuid (atoi (getUid o))).isSome ∧
      (∃ row, getCwd pid o = .ok row ∧ P row) ∧ (∃ row, getRoot pid o = .ok row ∧ P row) ∧
      (∃ row, getExe pid o = .ok row ∧ P row) ∧
      (∃ rows, getMem pid o = .ok rows ∧ ∀ row ∈ rows, P row) ∧
      ∃ rows, getFd pid o = .ok rows ∧ ∀ row ∈ rows, P row := by
  simp only [collect, except_bind_ok, getUsername_ok, Option.isSome_iff_exists]
  constructor
  · rintro ⟨_, ⟨name, known, cwd, hcwd, root, hroot, exe, hexe, mem, hmem, fd, hfd, collected⟩, good⟩
    cases collected
    simp only [List.cons_append, List.nil_append, List.mem_cons, List.mem_append] at good
    exact ⟨⟨name, known⟩, ⟨cwd, hcwd, good cwd (.inl rfl)⟩, ⟨root, hroot, good root (.inr (.inl rfl))⟩,
      ⟨exe, hexe, good exe (.inr (.inr (.inl rfl)))⟩,
      ⟨mem, hmem, fun row member => good row (.inr (.inr (.inr (.inl member))))⟩,
      ⟨fd, hfd, fun row member => good row (.inr (.inr (.inr (.inr member))))⟩⟩
  · rintro ⟨⟨name, known⟩, ⟨cwd, hcwd, gcwd⟩, ⟨root, hroot, groot⟩, ⟨exe, hexe, gexe⟩,
      ⟨mem, hmem, gmem⟩, ⟨fd, hfd, gfd⟩⟩
    refine ⟨_, ⟨name, known, cwd, hcwd, root, hroot, exe, hexe, mem, hmem, fd, hfd, rfl⟩, ?_⟩
    intro row member
    simp only [List.cons_append, List.nil_append, List.mem_cons, List.mem_append] at member
    rcases member with rfl | rfl | rfl | member | member
    · exact gcwd
    · exact groot
    · exact gexe
    · exact gmem row member
    · exact gfd row member

theorem getLink_good {P : Row → Prop} (good : ∀ row : Row, row.Own ∧ row.OfFile → P row)
    {fd : String} {link : Link} : (∃ row, getLink fd pid link = .ok row ∧ P row) ↔ link.Steady := by
  rw [← getLink_ok]
  constructor
  · rintro ⟨row, run, _⟩
    exact ⟨row, run⟩
  · rintro ⟨row, run⟩
    exact ⟨row, run, good row (getLink_own run)⟩

theorem collect_own : (∃ r, collect pid o = .ok r ∧ ∀ row ∈ r.2, row.Own) ↔ o.Steady := by
  have links {fd : String} {link : Link} :
      (∃ row, getLink fd pid link = .ok row ∧ row.Own) ↔ link.Steady :=
    getLink_good fun _ good => good.1
  have mem : (∃ rows, getMem pid o = .ok rows ∧ ∀ row ∈ rows, row.Own) ↔ o.MapsSteady := by
    rw [← getMem_ok]
    constructor
    · rintro ⟨rows, run, _⟩
      exact ⟨rows, run⟩
    · rintro ⟨rows, run⟩
      exact ⟨rows, run, fun row member => ((getMem_rows run).1 row member).own⟩
  rw [collect_ok, getCwd, getRoot, getExe, links, links, links, mem, getFd_own]
  constructor
  · rintro ⟨passwd, cwd, root, exe, maps, fd⟩
    exact ⟨passwd, cwd, root, exe, maps, fd⟩
  · rintro ⟨passwd, cwd, root, exe, maps, fd⟩
    exact ⟨passwd, cwd, root, exe, maps, fd⟩

/-- Only the rows of `maps` show another file than the one looked at. -/
theorem getMem_ofFile : (∃ rows, getMem pid o = .ok rows ∧ ∀ row ∈ rows, row.Own ∧ row.OfFile) ↔
    o.MapsSteady ∧ (o.mapsAccess → ∀ word ∈ mappedWords o, word = memPath pid) := by
  rw [← getMem_ok]
  constructor
  · rintro ⟨rows, run, good⟩
    obtain ⟨mem, names⟩ := getMem_rows run
    refine ⟨⟨rows, run⟩, ?_⟩
    intro access word member
    obtain ⟨row, listed, rfl⟩ := List.mem_map.mp ((names word).mpr ⟨access, member⟩)
    exact (mem row listed).ofFile_iff.mp (good row listed).2
  · rintro ⟨⟨rows, run⟩, unmapped⟩
    obtain ⟨mem, names⟩ := getMem_rows run
    refine ⟨rows, run, ?_⟩
    intro row listed
    obtain ⟨access, member⟩ := (names row.desc.name).mp (List.mem_map_of_mem listed)
    exact ⟨(mem row listed).own, (mem row listed).ofFile_iff.mpr (unmapped access _ member)⟩

theorem collect_ofFile :
    (∃ r, collect pid o = .ok r ∧ ∀ row ∈ r.2, row.Own ∧ row.OfFile) ↔
      o.Steady ∧ (o.mapsAccess → ∀ word ∈ mappedWords o, word = memPath pid) := by
  have links {fd : String} {link : Link} :
      (∃ row, getLink fd pid link = .ok row ∧ row.Own ∧ row.OfFile) ↔ link.Steady :=
    getLink_good fun _ good => good
  have fd : (∃ rows, getFd pid o = .ok rows ∧ ∀ row ∈ rows, row.Own ∧ row.OfFile) ↔
      o.FdSteady := by
    rw [← getFd_own]
    constructor
    · rintro ⟨rows, run, good⟩
      exact ⟨rows, run, fun row member => (good row member).1⟩
    · rintro ⟨rows, run, own⟩
      refine ⟨rows, run, fun row member => ⟨own row member, ?_⟩⟩
      intro call filled
      rw [own row member call filled]
      exact getFd_ofFile run row member
  rw [collect_ok, getCwd, getRoot, getExe, links, links, links, getMem_ofFile, fd]
  constructor
  · rintro ⟨passwd, cwd, root, exe, ⟨maps, unmapped⟩, fd⟩
    exact ⟨⟨passwd, cwd, root, exe, maps, fd⟩, unmapped⟩
  · rintro ⟨⟨passwd, cwd, root, exe, maps, fd⟩, unmapped⟩
    exact ⟨passwd, cwd, root, exe, ⟨maps, unmapped⟩, fd⟩

end Process

section Scan

/-- The scan gets through with every row's own data if and only if every process is
steady. That no row shows another file than its own calls for a scan without mapped
files besides. -/
theorem scan_survives_iff (processes : List (String × Outcome)) :
    ((∃ table, scan processes = .ok table ∧ ∀ p ∈ table, ∀ row ∈ p.2, row.Own) ↔
      ∀ p ∈ processes, p.2.Steady) ∧
    ((∃ table, scan processes = .ok table ∧ ∀ p ∈ table, ∀ row ∈ p.2, row.Own ∧ row.OfFile) ↔
      ∀ p ∈ processes, p.2.Steady ∧
        (p.2.mapsAccess → ∀ word ∈ mappedWords p.2, word = memPath p.1)) := by
  constructor
  · exact except_mapM_ok.trans (forall₂_congr fun p _ => collect_own)
  · exact except_mapM_ok.trans (forall₂_congr fun p _ => collect_ofFile)

/-- A link that can be read. -/
def readable (name : String) : Link := ⟨true, some name, some ⟨0o040755, 2⟩⟩

/-- A process that closes descriptor 3 after the directory has been read. -/
def closing : Outcome where
  comm := some ["cat"]
  status := some ["Name:\tcat", "Uid:\t0\t0\t0\t0"]
  getpwuid _ := some "root"
  cwd := readable "/"
  root := readable "/"
  exe := readable "/bin/cat"
  mapsAccess := true
  maps := some []
  mapsStat _ := none
  fdAccess := true
  opendir := some [⟨"3", none, none, none⟩]

theorem scan_indexes_minus_one : scan [("42", closing)] = .error .negativeIndex ∧
    ¬ ∃ table, scan [("42", closing)] = .ok table ∧ ∀ p ∈ table, ∀ row ∈ p.2, row.Own := by
  have fault : scan [("42", closing)] = .error .negativeIndex := rfl
  refine ⟨fault, ?_⟩
  rintro ⟨table, run, _⟩
  rw [fault] at run
  cases run

end Scan

end UnixProgramming.Lsof
