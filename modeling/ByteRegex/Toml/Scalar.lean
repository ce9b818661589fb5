import ByteRegex.Number.Positional
import ByteRegex.Toml.Text
import ByteRegex.Toml.Value

/-!
# Numbers, truth values, dates and times of TOML documents

These values are single words, so a word is taken as a whole and then looked at; only a date and a
time may also be two words with one blank between them.
-/

namespace ByteRegex.Toml

def isWordChar (c : Char) : Bool :=
  c.isAlphanum || c = '+' || c = '-' || c = '.' || c = '_' || c = ':'

/-! ## Numbers -/

/-- The digits of a number without the underscores, each of which must stand between two digits. The
flag tells whether a digit comes right before. -/
def ungroup? (isDigit : Char → Bool) (afterDigit : Bool) : List Char → Option (List Char)
  | [] => if afterDigit then some [] else none
  | c :: rest =>
    if isDigit c then (ungroup? isDigit true rest).map (c :: ·)
    else if c = '_' && afterDigit then ungroup? isDigit false rest
    else none

def ofDigits (base : Nat) (digits : List Char) : Nat :=
  Positional.ofLowDigits base (digits.reverse.map fun c => (hexDigit? c).getD 0)

def digits? (base : Nat) (cs : List Char) : Option (List Char) :=
  ungroup? (fun c => (hexDigit? c).any (· < base)) false cs

/-- Decimal digits without superfluous zeros in front. -/
def wholeDigits? (cs : List Char) : Option (List Char) :=
  match digits? 10 cs with
  | some ('0' :: _ :: _) => none
  | digits => digits

def sign (cs : List Char) : Bool × List Char :=
  match cs with
  | '-' :: rest => (true, rest)
  | '+' :: rest => (false, rest)
  | rest => (false, rest)

def integer64? (negative : Bool) (n : Nat) : Option Toml :=
  if negative then if n ≤ 1 <<< 63 then some (.integer (-(n : Int))) else none
  else if n < 1 <<< 63 then some (.integer n) else none

def integer? : List Char → Option Toml
  | '0' :: 'x' :: rest => (digits? 16 rest).bind fun ds => integer64? false (ofDigits 16 ds)
  | '0' :: 'o' :: rest => (digits? 8 rest).bind fun ds => integer64? false (ofDigits 8 ds)
  | '0' :: 'b' :: rest => (digits? 2 rest).bind fun ds => integer64? false (ofDigits 2 ds)
  | cs =>
    let (negative, rest) := sign cs
    (wholeDigits? rest).bind fun ds => integer64? negative (ofDigits 10 ds)

/-- The size of an exponent from which on further digits of it are left out. A number has to be
written with tens of thousands of digits for them to matter. -/
def exponentBound : Nat := 1 <<< 16

def ofExponentDigits (digits : List Char) : Nat :=
  digits.foldl (fun n c => if n < exponentBound then 10 * n + (hexDigit? c).getD 0 else n) 0

def exponent? (cs : List Char) : Option Int :=
  let (negative, rest) := sign cs
  (digits? 10 rest).map fun ds =>
    if negative then -(ofExponentDigits ds : Int) else ofExponentDigits ds

def isExponentMark (c : Char) : Bool :=
  c = 'e' || c = 'E'

/-- The fraction and the exponent of a number, at least one of which must be there. -/
def fraction? (cs : List Char) : Option (List Char × Int) :=
  match cs with
  | '.' :: rest => do
    let digits ← digits? 10 (rest.takeWhile (!isExponentMark ·))
    match rest.dropWhile (!isExponentMark ·) with
    | [] => return (digits, 0)
    | _ :: rest => return (digits, ← exponent? rest)
  | c :: rest => if isExponentMark c then (exponent? rest).map ([], ·) else none
  | [] => none

/-- A number with a fraction or an exponent, or one of the special values. A number too large to be
one is refused unless it is negative. -/
def float? (cs : List Char) : Option Toml :=
  let (negative, rest) := sign cs
  match rest with
  | ['i', 'n', 'f'] => some (.float (.infinite negative))
  | ['n', 'a', 'n'] => some (.float .nan)
  | _ => do
    let isWhole c := c ≠ '.' && !isExponentMark c
    let whole ← wholeDigits? (rest.takeWhile isWhole)
    let (fraction, exponent) ← fraction? (rest.dropWhile isWhole)
    let x := Binary64.ofDecimal negative (ofDigits 10 (whole ++ fraction))
      (exponent - (fraction.length : Int))
    if x = .infinite false then none else return .float x

/-! ## Dates and times -/

def twoDigits? (low high : Nat) : List Char → Option (Nat × List Char)
  | a :: b :: rest =>
    if a.isDigit && b.isDigit then
      let n := ofDigits 10 [a, b]
      if low ≤ n ∧ n ≤ high then some (n, rest) else none
    else none
  | _ => none

def after? (c : Char) : List Char → Option (List Char)
  | d :: rest => if d = c then some rest else none
  | [] => none

def daysOfMonth (year month : Nat) : Nat :=
  if month = 2 then
    if year % 4 = 0 ∧ (year % 100 ≠ 0 ∨ year % 400 = 0) then 29 else 28
  else if month = 4 ∨ month = 6 ∨ month = 9 ∨ month = 11 then 30
  else 31

def date? (cs : List Char) : Option (List Char) := do
  let (century, rest) ← twoDigits? 0 99 cs
  let (year, rest) ← twoDigits? 0 99 rest
  let (month, rest) ← twoDigits? 1 12 (← after? '-' rest)
  let (day, rest) ← twoDigits? 1 31 (← after? '-' rest)
  if day ≤ daysOfMonth (100 * century + year) month then return rest else none

def secondFraction (cs : List Char) : List Char :=
  match cs with
  | '.' :: c :: rest => if c.isDigit then rest.dropWhile Char.isDigit else cs
  | _ => cs

def time? (cs : List Char) : Option (List Char) := do
  let (_, rest) ← twoDigits? 0 23 cs
  let (_, rest) ← twoDigits? 0 59 (← after? ':' rest)
  let (_, rest) ← twoDigits? 0 60 (← after? ':' rest)
  return secondFraction rest

/-- Whether the characters are the distance of a local time from universal time, or nothing. -/
def isZone (cs : List Char) : Bool :=
  match cs with
  | [] | ['Z'] | ['z'] => true
  | c :: rest =>
    (c = '+' || c = '-') &&
      ((do
        let (_, rest) ← twoDigits? 0 23 rest
        let (_, rest) ← twoDigits? 0 59 (← after? ':' rest)
        return rest.isEmpty : Option Bool) == some true)

def isZonedTime (cs : List Char) : Bool :=
  (time? cs).any isZone

/-- Whether the word is a date, a time of the day, or a date and a time joined by a letter. -/
def isMoment (cs : List Char) : Bool :=
  match date? cs with
  | some [] => true
  | some (c :: rest) => (c = 'T' || c = 't') && isZonedTime rest
  | none => time? cs == some []

/-! ## Words -/

def word? (cs : List Char) : Option Toml :=
  match cs with
  | ['t', 'r', 'u', 'e'] => some (.boolean true)
  | ['f', 'a', 'l', 's', 'e'] => some (.boolean false)
  | _ =>
    if isMoment cs then some (.moment (String.ofList cs))
    else (integer? cs).or (float? cs)

/-- Reads a word, or a date and a time with one blank between them. -/
def scalar? (cs : List Char) : Option (Toml × List Char) :=
  let word := cs.takeWhile isWordChar
  let rest := cs.dropWhile isWordChar
  match date? word, rest with
  | some [], ' ' :: next =>
    let time := next.takeWhile isWordChar
    if time.isEmpty then some (.moment (String.ofList word), rest)
    else if isZonedTime time then
      some (.moment (String.ofList (word ++ ' ' :: time)), next.dropWhile isWordChar)
    else none
  | _, _ => (word? word).map (·, rest)

end ByteRegex.Toml
