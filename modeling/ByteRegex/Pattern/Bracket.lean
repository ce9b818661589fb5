import ByteRegex.Pattern.Error
import ByteRegex.Pattern.Escape

/-!
# Bracket expressions

A bracket expression lists single bytes, ranges and named sets, and may negate the list. It is read
one byte at a time, starting after the opening bracket. A byte that could be the low end of a range
waits until the next byte tells, and a dash waits for one byte more, since a dash in front of the
closing bracket stands for itself.
-/

namespace ByteRegex

inductive BracketPhase where
  /-- Right after the opening bracket, where a caret negates. -/
  | opened
  /-- In front of the first item, where a closing bracket stands for itself. -/
  | first
  /-- In front of an item or of the closing bracket. -/
  | item
  /-- After the backslash at `pos` that starts an item. -/
  | escape (pos : Nat)
  /-- After the byte `b`, which was written at `pos` and may start a range. -/
  | low (b : UInt8) (pos : Nat)
  /-- After such a byte and a dash. -/
  | dash (b : UInt8) (pos : Nat)
  /-- After such a byte, a dash and the backslash at `backslash`. -/
  | high (b : UInt8) (pos backslash : Nat)
deriving DecidableEq

/-- A bracket expression that is being read: the offset of the opening bracket, whether the set is
to be negated, the items so far, and how far the reading is. -/
structure BracketReader where
  pos : Nat
  negated : Bool
  set : ByteSet
  phase : BracketPhase
deriving DecidableEq

inductive BracketStep where
  /-- The expression goes on. -/
  | more (reader : BracketReader)
  /-- The byte was the closing bracket. -/
  | done (set : ByteSet)
deriving DecidableEq

namespace BracketReader

def start (pos : Nat) : BracketReader :=
  { pos := pos, negated := false, set := .empty, phase := .opened }

def result (reader : BracketReader) : ByteSet :=
  if reader.negated then reader.set.compl else reader.set

/-- Reads the first byte of an item that cannot be the closing bracket. -/
def feedItem (reader : BracketReader) (pos : Nat) (b : UInt8) : BracketReader :=
  if b = '\\'.toUInt8 then { reader with phase := .escape pos }
  else { reader with phase := .low b pos }

def feedItemOrEnd (reader : BracketReader) (pos : Nat) (b : UInt8) : BracketStep :=
  if b = ']'.toUInt8 then .done reader.result else .more (reader.feedItem pos b)

def addRange (reader : BracketReader) (low : UInt8) (pos : Nat) (high : UInt8) :
    Except PatternError BracketStep :=
  if high < low then .error (.invalidClassRange pos)
  else .ok (.more { reader with set := reader.set.insertRange low high, phase := .item })

def feed (reader : BracketReader) (pos : Nat) (b : UInt8) : Except PatternError BracketStep :=
  match reader.phase with
  | .opened =>
    if b = '^'.toUInt8 then .ok (.more { reader with negated := true, phase := .first })
    else .ok (.more (reader.feedItem pos b))
  | .first => .ok (.more (reader.feedItem pos b))
  | .item => .ok (reader.feedItemOrEnd pos b)
  | .escape backslash =>
    match Escaped.ofByte? b with
    | none => .error (.invalidEscape backslash b)
    | some (.byte c) => .ok (.more { reader with phase := .low c backslash })
    | some (.set s) => .ok (.more { reader with set := reader.set.union s, phase := .item })
  | .low c start =>
    if b = '-'.toUInt8 then .ok (.more { reader with phase := .dash c start })
    else .ok (feedItemOrEnd { reader with set := reader.set.insert c } pos b)
  | .dash c start =>
    if b = ']'.toUInt8 then
      .ok (.done { reader with set := (reader.set.insert c).insert '-'.toUInt8 }.result)
    else if b = '\\'.toUInt8 then .ok (.more { reader with phase := .high c start pos })
    else reader.addRange c start b
  | .high c start backslash =>
    match Escaped.ofByte? b with
    | none => .error (.invalidEscape backslash b)
    | some (.byte h) => reader.addRange c start h
    | some (.set _) => .error (.invalidClassRange start)

def unfinished (reader : BracketReader) : PatternError :=
  match reader.phase with
  | .escape backslash | .high _ _ backslash => .trailingEscape backslash
  | _ => .unclosedClass reader.pos

end BracketReader

end ByteRegex
