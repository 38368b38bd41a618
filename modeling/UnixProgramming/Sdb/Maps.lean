import UnixProgramming.Foundation.OrderedMap
import UnixProgramming.Foundation.Text

/-!
# Reading a memory map: `load_maps`

The text is that of `/proc/pid/maps`. It is read with a buffer for 255 characters, each
piece is cut into at most eight tokens, and the map of ranges is ordered by the source's
own `operator<`.
-/

namespace UnixProgramming.Sdb

open Text OrderedMap

/-- A row of `load_maps`. -/
structure MapEntry where
  first : BitVec 64
  last : BitVec 64
  perm : BitVec 3
  name : String
  deriving DecidableEq

section Model

/-- The separators `" \t\n\r"`. -/
def isDelim (c : Char) : Bool := c = ' ' ∨ c = Char.ofNat 9 ∨ c = newline ∨ c = Char.ofNat 13

/-- `operator<` on `range_t`. -/
def lessRange (r1 r2 : BitVec 64 × BitVec 64) : Bool := r1.1 < r2.1 ∧ r1.2 < r2.2

/-- The text of a token. -/
def tokenText (arg : List Char) : List Char := arg.takeWhile fun c => !isDelim c

/-- The entry for one line; nothing if an element of `args` or a part of the range is used
that has never been assigned. -/
def readLine (buf : List Char) : Option MapEntry :=
  match (tokens isDelim true buf).take 8 with
  | range :: perms :: _ :: _ :: _ :: name :: _ =>
    match (tokenText range).dropWhile (· ≠ '-') with
    | [] => none
    | _ :: last => some {
        first := strtoll 16 ((tokenText range).takeWhile (· ≠ '-'))
        last := strtoll 16 last
        perm := (if perms[0]? = some 'r' then 4 else 0) |||
          (if perms[1]? = some 'w' then 2 else 0) ||| (if perms[2]? = some 'x' then 1 else 0)
        name := String.ofList (tokenText name) }
  | _ => none

/-- The loop of `load_maps`. -/
def readLines (loaded : List ((BitVec 64 × BitVec 64) × MapEntry)) :
    List (List Char) → Option (List ((BitVec 64 × BitVec 64) × MapEntry))
  | [] => some loaded
  | buf :: rest =>
    match readLine (upToNul buf) with
    | none => none
    | some m => readLines (assign lessRange (m.first, m.last) m loaded) rest

/-- The values of the map, in its order. -/
def loadMaps (text : List Char) : Option (List MapEntry) :=
  (readLines [] (fgets 256 text)).map (List.map Prod.snd)

end Model

section Lines

theorem readLines_iff {loaded table : List ((BitVec 64 × BitVec 64) × MapEntry)}
    {bufs : List (List Char)} : readLines loaded bufs = some table ↔
      ∃ rows : List MapEntry, bufs.map (fun buf => readLine (upToNul buf)) = rows.map some ∧
        table = (rows.map fun m => ((m.first, m.last), m)).foldl
          (fun loaded e => assign lessRange e.1 e.2 loaded) loaded := by
  induction bufs generalizing loaded with
  | nil =>
    constructor
    · intro done
      exact ⟨[], rfl, (Option.some.inj done).symm⟩
    · rintro ⟨rows, same, rfl⟩
      obtain rfl : [] = rows := by simpa using same
      rfl
  | cons buf rest ih =>
    rw [readLines]
    cases found : readLine (upToNul buf) with
    | none =>
      refine iff_of_false (by simp) ?_
      rintro ⟨rows, same, -⟩
      cases rows with
      | nil => cases same
      | cons m rows =>
        rw [List.map_cons, List.map_cons, found] at same
        cases same
    | some m =>
      dsimp only
      rw [ih]
      constructor
      · rintro ⟨rows, same, rfl⟩
        exact ⟨m :: rows, by simp [found, same], rfl⟩
      · rintro ⟨rows, same, rfl⟩
        cases rows with
        | nil => cases same
        | cons m' rows =>
          rw [List.map_cons, List.map_cons, found] at same
          obtain ⟨head, tail⟩ := List.cons.inj same
          obtain rfl := Option.some.inj head
          exact ⟨rows, tail, rfl⟩

end Lines

section Format

/-- A line `begin-end perms offset dev inode` of the kernel, with a path behind some spaces
if the mapping has one. -/
structure MapLine where
  first : BitVec 64
  last : BitVec 64
  firstText : List Char
  lastText : List Char
  r : Bool
  w : Bool
  x : Bool
  shared : Bool
  offset : List Char
  dev : List Char
  inode : List Char
  gap : Nat
  path : List Char
  nonempty : first < last
  firstSpells : Spells 16 firstText first.toNat
  lastSpells : Spells 16 lastText last.toNat
  fields : ∀ field ∈ [offset, dev, inode], field ≠ [] ∧ ∀ c ∈ field, isDelim c = false ∧ c ≠ nul
  oneLine : newline ∉ path ∧ nul ∉ path
  apart : path ≠ [] → 0 < gap

namespace MapLine

variable (l : MapLine)

def perms : List Char :=
  [if l.r then 'r' else '-', if l.w then 'w' else '-', if l.x then 'x' else '-',
    if l.shared then 's' else 'p']

/-- The line without its newline. -/
def text : List Char :=
  (l.firstText ++ '-' :: l.lastText) ++ ' ' :: (l.perms ++ ' ' :: (l.offset ++ ' ' ::
    (l.dev ++ ' ' :: (l.inode ++ (List.replicate l.gap ' ' ++ l.path)))))

/-- The row that the line stands for. -/
def entry : MapEntry where
  first := l.first
  last := l.last
  perm := (if l.r then 4 else 0) ||| (if l.w then 2 else 0) ||| (if l.x then 1 else 0)
  name := String.ofList l.path

/-- The line is within the limits of `load_maps`: the path is there and is one token, the
line with its newline fits into the buffer, and the range is in the range of `long long`. -/
structure Fits : Prop where
  named : l.path ≠ []
  oneToken : ∀ c ∈ l.path, isDelim c = false
  short : l.text.length < 255
  low : l.last.toNat < 2 ^ 63

variable {l}

theorem isDelim_of_digit {c : Char} (h : (digit 16 c).isSome) : isDelim c = false ∧ c ≠ nul := by
  have high := toNat_of_digit h
  simp only [isDelim, decide_eq_false_iff_not, not_or]
  refine ⟨⟨?_, ?_, ?_, ?_⟩, ?_⟩ <;> rintro rfl <;> exact absurd high (by decide)

theorem range_inner : ∀ c ∈ l.firstText ++ '-' :: l.lastText, isDelim c = false ∧ c ≠ nul := by
  intro c member
  obtain first | rest := List.mem_append.mp member
  · exact isDelim_of_digit (l.firstSpells.digit c first)
  · obtain rfl | last := List.mem_cons.mp rest
    · decide
    · exact isDelim_of_digit (l.lastSpells.digit c last)

theorem perms_inner : ∀ c ∈ l.perms, isDelim c = false ∧ c ≠ nul := by
  unfold perms
  cases l.r <;> cases l.w <;> cases l.x <;> cases l.shared <;>
    simp [isDelim, nul, newline]

/-- The tokens of a line. -/
theorem runs_text : runs isDelim (l.text ++ [newline]) =
    (l.firstText ++ '-' :: l.lastText) :: l.perms :: l.offset :: l.dev :: l.inode ::
      runs isDelim l.path := by
  have word (field : List Char) (nonempty : field ≠ [])
      (inner : ∀ c ∈ field, isDelim c = false ∧ c ≠ nul) (rest : List Char) :
      runs isDelim (field ++ ' ' :: rest) = field :: runs isDelim rest :=
    runs_word_append nonempty (fun c member => (inner c member).1) (by decide)
  have fields := l.fields
  simp only [List.forall_mem_cons] at fields
  obtain ⟨offset, dev, inode, -⟩ := fields
  have last : runs isDelim (l.inode ++ (List.replicate l.gap ' ' ++ l.path)) =
      l.inode :: runs isDelim l.path := by
    cases gap : l.gap with
    | zero =>
      have none : l.path = [] := by
        by_contra named
        have := l.apart named
        omega
      rw [none, List.append_nil, List.replicate_zero, List.append_nil]
      exact runs_word inode.1 fun c member => (inode.2 c member).1
    | succ n =>
      have blank : ∀ c ∈ List.replicate n ' ', isDelim c = true := by
        intro c member
        rw [List.eq_of_mem_replicate member]
        decide
      rw [List.replicate_succ, List.cons_append, word _ inode.1 inode.2, runs_blank_append blank]
  rw [runs_append_blank (by simp [isDelim, newline]), text, word _ (by simp) range_inner,
    word l.perms (List.cons_ne_nil _ _) perms_inner, word _ offset.1 offset.2, word _ dev.1 dev.2, last]

end MapLine

end Format

section Table

/-- The text of `/proc/pid/maps`. -/
def content (lines : List MapLine) : List Char := lines.flatMap fun l => l.text ++ [newline]

/-- The ranges are disjoint. -/
def Disjoint (lines : List MapLine) : Prop :=
  lines.Pairwise fun l l' => l.last ≤ l'.first ∨ l'.last ≤ l.first

variable {lines : List MapLine}

theorem lessRange_trans (a b c : BitVec 64 × BitVec 64) (ab : lessRange a b = true)
    (bc : lessRange b c = true) : lessRange a c = true := by
  simp only [lessRange, decide_eq_true_eq] at *
  exact ⟨BitVec.lt_trans ab.1 bc.1, BitVec.lt_trans ab.2 bc.2⟩

end Table

end UnixProgramming.Sdb
