import ByteRegex.Pattern.Reader

/-!
# Limits

The limits that a matcher works under.
-/

namespace ByteRegex

structure Limits where
  /-- The largest number of instructions that one search may execute, if there is any. -/
  stepLimit : Option Nat := none
  /-- The largest bound of a repetition. -/
  maxRepetitions : Nat := 1000
  /-- The largest number of groups inside one another. -/
  maxNesting : Nat := 128
  /-- The largest number of instructions in a program. -/
  maxProgramSize : Nat := 100000
  /-- The largest number of cells in the table of states that a search remembers. A search that
  needs more does without; it finds the same matches but may take longer. -/
  maxVisitedBits : Nat := 1 <<< 28
deriving DecidableEq

namespace Limits

def pattern (limits : Limits) : PatternLimits :=
  { maxRepetitions := limits.maxRepetitions, maxNesting := limits.maxNesting }

end Limits

end ByteRegex
