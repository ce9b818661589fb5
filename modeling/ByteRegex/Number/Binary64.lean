/-!
# Binary floating-point numbers

The numbers with a significand of 53 bits, as pairs of whole numbers. A decimal number is rounded to
the nearest of them in exact arithmetic; of two that are equally near, the one with the even
significand is taken.
-/

namespace ByteRegex

inductive Binary64 where
  | nan
  | infinite (negative : Bool)
  /-- The number `significand * 2 ^ exponent`, or its negative. The exponent is as small as a
  significand below `2 ^ 53` and the least exponent allow. -/
  | finite (negative : Bool) (significand : Nat) (exponent : Int)
deriving DecidableEq

namespace Binary64

def precision : Nat := 53

def minExponent : Int := -1074

def maxExponent : Int := 971

/-- The quotient rounded to the nearest whole number, to the even one if two are equally near. -/
def divNearestEven (num den : Nat) : Nat :=
  let q := num / den
  let twice := 2 * (num % den)
  if twice < den then q
  else if den < twice then q + 1
  else if q % 2 = 0 then q else q + 1

/-- The fraction `num / den * 2 ^ n` as numerator and denominator. -/
def scaled (num den : Nat) (n : Int) : Nat × Nat :=
  match n with
  | .ofNat n => (num <<< n, den)
  | .negSucc n => (num, den <<< (n + 1))

/-- The exponent `e` with `2 ^ e ≤ num / den < 2 ^ (e + 1)`, for a fraction other than zero. -/
def binaryOrder (num den : Nat) : Int :=
  let e : Int := (num.log2 : Int) - (den.log2 : Int)
  let (n, d) := scaled num den (-e)
  if n < d then e - 1 else e

/-- The number nearest to the fraction `num / den`, or its negative. -/
def ofFraction (negative : Bool) (num den : Nat) : Binary64 :=
  if num = 0 then finite negative 0 minExponent
  else
    let exponent := max minExponent (binaryOrder num den - ((precision : Int) - 1))
    let (n, d) := scaled num den (-exponent)
    let rounded := divNearestEven n d
    let (significand, exponent) :=
      if rounded = 1 <<< precision then (1 <<< (precision - 1), exponent + 1)
      else (rounded, exponent)
    if maxExponent < exponent then infinite negative else finite negative significand exponent

def ofDecimal (negative : Bool) (digits : Nat) : (exponent : Int) → Binary64
  | .ofNat n => ofFraction negative (digits * Nat.pow 10 n) 1
  | .negSucc n => ofFraction negative digits (Nat.pow 10 (n + 1))

end Binary64

end ByteRegex
