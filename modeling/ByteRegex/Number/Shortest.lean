import ByteRegex.Number.Binary64

/-!
# The shortest decimal text of a floating-point number

A number is written with the fewest digits that read back as the same number; of several such texts,
with the one nearest to the number. The digits are found in exact arithmetic: for each count of
digits the two neighbours of the number among the decimals with so many digits are tried, and the
first count that has a hit is taken.
-/

namespace ByteRegex

/-- Digits `d` and an exponent `e`, for the number `d * 10 ^ e`. -/
structure DecimalDigits where
  digits : Nat
  exponent : Int
deriving DecidableEq

namespace Binary64

/-- The numbers that round to `significand * 2 ^ exponent`, all scaled by the same factor so that
they are whole: the lower end, the number itself, the upper end, and the fraction of one that the
scale makes out of the number one. The ends belong to the interval if the significand is even. -/
structure Interval where
  low : Nat
  value : Nat
  high : Nat
  one : Nat
  closed : Bool

/-- The interval of the number `significand * 2 ^ exponent`. Below a power of two the numbers are
twice as dense, except at the least exponent. -/
def interval (significand : Nat) (exponent : Int) : Interval :=
  let up := 1 <<< exponent.toNat
  let one := 4 <<< (-exponent).toNat
  let isPower := significand = 1 <<< (precision - 1) ∧ minExponent < exponent
  { low := (if isPower then 4 * significand - 1 else 4 * significand - 2) * up
    value := 4 * significand * up
    high := (4 * significand + 2) * up
    one := one
    closed := significand % 2 = 0 }

namespace Interval

def contains (i : Interval) (num den : Nat) : Bool :=
  if i.closed then i.low * den ≤ num && num ≤ i.high * den
  else i.low * den < num && num < i.high * den

/-- The factors `a` and `b` with `a / b = 10 ^ e`. -/
def powerOfTen (e : Int) : Nat × Nat :=
  (Nat.pow 10 e.toNat, Nat.pow 10 (-e).toNat)

/-- The one of the two multiples of `10 ^ e` around the value that lies in the interval, if any
does. If both do, the nearer one, or the upper one of two that are equally near. -/
def onGrid? (i : Interval) (e : Int) : Option Nat :=
  let (up, down) := powerOfTen e
  let unit := up * i.one
  let below := i.value * down / unit
  let above := below + 1
  match i.contains (below * unit) down, i.contains (above * unit) down with
  | true, true =>
    if 2 * (i.value * down) < (below + above) * unit then some below else some above
  | true, false => some below
  | false, true => some above
  | false, false => none

/-- The first grid with a hit, from the power `e` of ten downwards. -/
def firstGrid (i : Interval) (e : Int) : (n : Nat) → DecimalDigits
  | 0 => { digits := (i.onGrid? e).getD 0, exponent := e }
  | n + 1 =>
    match i.onGrid? e with
    | some digits => { digits := digits, exponent := e }
    | none => firstGrid i (e - 1) n

/-- A power of ten that is above the value. -/
def orderBound (i : Interval) : Int :=
  ((Nat.toDigits 10 i.value).length : Int) - (Nat.toDigits 10 i.one).length + 1

def shortest (i : Interval) : DecimalDigits :=
  i.firstGrid i.orderBound 20

end Interval

/-- Digits with the decimal point where the exponent puts it, without an exponent in the text. -/
def positional (d : DecimalDigits) : String :=
  let digits := Nat.toDigits 10 d.digits
  match d.exponent with
  | .ofNat n => String.ofList (digits ++ List.replicate n '0')
  | .negSucc n =>
    let places := n + 1
    let padded := List.replicate (places + 1 - digits.length) '0' ++ digits
    String.ofList (padded.take (padded.length - places)) ++ "." ++
      String.ofList (padded.drop (padded.length - places))

/-- The text of a number: always positional, and a whole number without point. -/
def text : Binary64 → String
  | nan => "NaN"
  | infinite negative => if negative then "-inf" else "inf"
  | finite negative significand exponent =>
    let sign := if negative then "-" else ""
    if significand = 0 then sign ++ "0"
    else sign ++ positional (interval significand exponent).shortest

end Binary64

end ByteRegex
