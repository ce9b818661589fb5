/-!
# Decimal digits as bytes

Patterns and templates hold numbers as runs of the bytes `0` to `9`.
-/

namespace ByteRegex.Text

def isDigit (b : UInt8) : Bool :=
  '0'.toUInt8 ≤ b && b ≤ '9'.toUInt8

def digitValue (b : UInt8) : Nat :=
  b.toNat - '0'.toNat

end ByteRegex.Text
