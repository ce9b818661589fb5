/-!
# Numbers in base 16

Listings write addresses and bytes in base 16, in lowercase, padded with zeros.
-/

namespace ByteRegex.Text

/-- The digits of `n` in base 16, with zeros in front up to `width` of them. -/
def hex (width n : Nat) : String :=
  let digits := Nat.toDigits 16 n
  String.ofList (List.replicate (width - digits.length) '0' ++ digits)

def hexByte (b : UInt8) : String :=
  "0x" ++ hex 2 b.toNat

end ByteRegex.Text
