import ByteRegex.Pattern.Error
import ByteRegex.Text.Digit

/-!
# Bounds of repetitions

The braces after an operand hold one number, a number and a comma, or two numbers with a comma
between them. They are read one byte at a time, starting after the opening brace. A number is
refused at the digit that takes it above the limit, however many digits follow.
-/

namespace ByteRegex

/-- A number that is being read: the offset of its first digit, and its value so far. -/
structure NumberReader where
  pos : Nat
  value : Nat
deriving DecidableEq

namespace NumberReader

def feed (limit pos : Nat) (digit : UInt8) (number : Option NumberReader) :
    Except PatternError (Option NumberReader) :=
  let n := number.getD ⟨pos, 0⟩
  let value := 10 * n.value + Text.digitValue digit
  if limit < value then .error (.repetitionTooLarge n.pos limit)
  else .ok (some ⟨n.pos, value⟩)

end NumberReader

inductive BoundsPhase where
  | min (number : Option NumberReader)
  | max (min : Nat) (number : Option NumberReader)
deriving DecidableEq

/-- Bounds that are being read: the offset of the opening brace, and how far the reading is. -/
structure BoundsReader where
  pos : Nat
  phase : BoundsPhase
deriving DecidableEq

inductive BoundsStep where
  /-- The bounds go on. -/
  | more (reader : BoundsReader)
  /-- The byte was the closing brace. -/
  | done (min : Nat) (max : Option Nat)
deriving DecidableEq

namespace BoundsReader

def opened (pos : Nat) : BoundsReader :=
  { pos := pos, phase := .min none }

def feed (limit : Nat) (reader : BoundsReader) (pos : Nat) (b : UInt8) :
    Except PatternError BoundsStep :=
  match reader.phase with
  | .min number =>
    if Text.isDigit b then do
      let number ← NumberReader.feed limit pos b number
      return .more { reader with phase := .min number }
    else
      match number with
      | none => .error (.invalidRepetition reader.pos)
      | some n =>
        if b = '\x7d'.toUInt8 then .ok (.done n.value (some n.value))
        else if b = ','.toUInt8 then .ok (.more { reader with phase := .max n.value none })
        else .error (.invalidRepetition reader.pos)
  | .max min number =>
    if Text.isDigit b then do
      let number ← NumberReader.feed limit pos b number
      return .more { reader with phase := .max min number }
    else if b = '\x7d'.toUInt8 then
      match number with
      | none => .ok (.done min none)
      | some n =>
        if n.value < min then .error (.invalidRepetition reader.pos)
        else .ok (.done min (some n.value))
    else .error (.invalidRepetition reader.pos)

end BoundsReader

end ByteRegex
