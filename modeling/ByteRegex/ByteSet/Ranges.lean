import ByteRegex.ByteSet.Basic
import ByteRegex.Text.Hex

/-!
# The ranges of a set of bytes

A set is written as its members in ascending order, with contiguous members joined into ranges.
-/

namespace ByteRegex

/-- The bytes from `low` to `high`, both included. -/
structure ByteRange where
  low : UInt8
  high : UInt8
deriving DecidableEq

namespace ByteRange

def text (r : ByteRange) : String :=
  if r.low = r.high then Text.hexByte r.low
  else Text.hexByte r.low ++ "-" ++ Text.hexByte r.high

/-- Puts a byte in front of ranges that lie above it. It extends the first of them when the two are
contiguous, so that no two neighbouring ranges of the result could be joined. -/
def cons (b : UInt8) : List ByteRange → List ByteRange
  | [] => [⟨b, b⟩]
  | r :: rest => if b.toNat + 1 = r.low.toNat then ⟨b, r.high⟩ :: rest else ⟨b, b⟩ :: r :: rest

end ByteRange

namespace ByteSet

def members (s : ByteSet) : List UInt8 :=
  ((List.range 256).map UInt8.ofNat).filter s.contains

/-- The members as ranges: sorted, disjoint, and joined when contiguous. -/
def ranges (s : ByteSet) : List ByteRange :=
  s.members.foldr ByteRange.cons []

def text (s : ByteSet) : String :=
  "[" ++ " ".intercalate (s.ranges.map ByteRange.text) ++ "]"

/-- The text of a set where its kind is to be told as well. -/
def taggedText (s : ByteSet) : String :=
  "ByteClass" ++ s.text

end ByteSet

end ByteRegex
