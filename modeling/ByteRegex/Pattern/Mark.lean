/-!
# Bytes with a meaning of their own

In a pattern most bytes stand for themselves. The exceptions, outside brackets and braces, are
listed here once.
-/

namespace ByteRegex

/-- A byte of a pattern that does not stand for itself. -/
inductive Mark where
  | opening
  | closing
  | bar
  | bracket
  | dot
  | caret
  | dollar
  | backslash
  | asterisk
  | plus
  | question
  | brace
deriving DecidableEq

namespace Mark

def byte : Mark → UInt8
  | opening => '('.toUInt8
  | closing => ')'.toUInt8
  | bar => '|'.toUInt8
  | bracket => '['.toUInt8
  | dot => '.'.toUInt8
  | caret => '^'.toUInt8
  | dollar => '$'.toUInt8
  | backslash => '\\'.toUInt8
  | asterisk => '*'.toUInt8
  | plus => '+'.toUInt8
  | question => '?'.toUInt8
  | brace => '\x7b'.toUInt8

def all : List Mark :=
  [opening, closing, bar, bracket, dot, caret, dollar, backslash, asterisk, plus, question, brace]

def ofByte? (b : UInt8) : Option Mark :=
  all.find? (fun m => m.byte == b)

theorem ofByte?_byte (m : Mark) : ofByte? m.byte = some m := by
  cases m <;> decide

theorem byte_of_ofByte? {b : UInt8} {m : Mark} (h : ofByte? b = some m) : m.byte = b := by
  simpa using List.find?_some h

end Mark

end ByteRegex
