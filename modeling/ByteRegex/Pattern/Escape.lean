import ByteRegex.ByteSet.Basic

/-!
# Escape sequences

A backslash takes the meaning from a byte that has one, writes a control byte, or names a set of
bytes.
-/

namespace ByteRegex

inductive Escaped where
  | byte (b : UInt8)
  | set (s : ByteSet)
deriving DecidableEq

namespace Escaped

/-- The bytes that stand for themselves after a backslash. -/
def literals : List UInt8 :=
  ['.', '+', '*', '?', '|', '\\', '(', ')', '[', ']', '\x7b', '\x7d', '^', '$', '-', '/'].map
    Char.toUInt8

def letters : List (UInt8 × Escaped) :=
  [('d'.toUInt8, .set .digit), ('D'.toUInt8, .set ByteSet.digit.compl),
   ('w'.toUInt8, .set .word), ('W'.toUInt8, .set ByteSet.word.compl),
   ('s'.toUInt8, .set .space), ('S'.toUInt8, .set ByteSet.space.compl),
   ('n'.toUInt8, .byte '\n'.toUInt8), ('r'.toUInt8, .byte '\r'.toUInt8),
   ('t'.toUInt8, .byte '\t'.toUInt8)]

def ofByte? (b : UInt8) : Option Escaped :=
  if b ∈ literals then some (.byte b) else letters.lookup b

end Escaped

end ByteRegex
