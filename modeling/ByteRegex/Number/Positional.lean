/-!
# Numbers written in a base

The value of a list of digits. Neighbouring digits are joined to digits of the square of the base,
and so on until one digit is left, because that is far cheaper than one digit after the other if
there are many. `ofLowDigits_eq_foldr` says that the value is that of the digits one after the
other.
-/

namespace ByteRegex.Positional

/-- Joins neighbouring digits, the lowest first, to digits of the square of the base. -/
def joinPairs (base : Nat) : List Nat → List Nat
  | low :: high :: rest => (low + base * high) :: joinPairs base rest
  | rest => rest

theorem length_joinPairs (base : Nat) (digits : List Nat) :
    (joinPairs base digits).length = (digits.length + 1) / 2 := by
  fun_induction joinPairs base digits with
  | case1 low high rest ih =>
    simp only [List.length_cons, ih]
    omega
  | case2 rest hshort =>
    match rest with
    | [] => rfl
    | [_] => simp
    | low :: high :: rest => exact absurd rfl (hshort low high rest)

def ofLowDigits (base : Nat) : List Nat → Nat
  | [] => 0
  | [digit] => digit
  | low :: high :: rest =>
    ofLowDigits (base * base) ((low + base * high) :: joinPairs base rest)
termination_by digits => digits.length
decreasing_by
  simp only [List.length_cons, length_joinPairs]
  omega

theorem foldr_joinPairs (base : Nat) (digits : List Nat) :
    (joinPairs base digits).foldr (fun digit n => digit + base * base * n) 0 =
      digits.foldr (fun digit n => digit + base * n) 0 := by
  fun_induction joinPairs base digits with
  | case1 low high rest ih =>
    simp only [List.foldr_cons]
    rw [ih, Nat.mul_add, Nat.mul_assoc, Nat.add_assoc]
  | case2 rest hshort =>
    match rest with
    | [] => rfl
    | [_] => rfl
    | low :: high :: rest => exact absurd rfl (hshort low high rest)

theorem ofLowDigits_eq_foldr (base : Nat) (digits : List Nat) :
    ofLowDigits base digits = digits.foldr (fun digit n => digit + base * n) 0 := by
  fun_induction ofLowDigits base digits with
  | case1 => rfl
  | case2 => simp
  | case3 base low high rest ih =>
    rw [ih]
    exact foldr_joinPairs base (low :: high :: rest)

end ByteRegex.Positional
