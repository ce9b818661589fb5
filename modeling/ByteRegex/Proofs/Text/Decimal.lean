import ByteRegex.Text.Digit

/-!
# The value of decimal digits

A run of digits writes a number, digit by digit from the left. The readers of patterns and templates
follow it.
-/

namespace ByteRegex.Text

def decimalValue (digits : List UInt8) : Nat :=
  digits.foldl (fun n d => 10 * n + digitValue d) 0

theorem decimalValue_concat (digits : List UInt8) (d : UInt8) :
    decimalValue (digits ++ [d]) = 10 * decimalValue digits + digitValue d := by
  rw [decimalValue, List.foldl_append]
  rfl

/-- More digits make no smaller number. -/
theorem decimalValue_le_append (digits more : List UInt8) :
    decimalValue digits ≤ decimalValue (digits ++ more) := by
  induction more generalizing digits with
  | nil => exact Nat.le_of_eq (by rw [List.append_nil])
  | cons d more ih =>
    have hrest := ih (digits ++ [d])
    rw [decimalValue_concat, List.append_assoc, List.singleton_append] at hrest
    omega

end ByteRegex.Text
