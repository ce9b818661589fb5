/-!
# Faults of patterns

Every fault carries the offset, in bytes, of the construct that is to blame.
-/

namespace ByteRegex

inductive PatternError where
  /-- An opening parenthesis that nothing closes. -/
  | unclosedParenthesis (pos : Nat)
  /-- A closing parenthesis that closes nothing. -/
  | unexpectedParenthesis (pos : Nat)
  /-- A quantifier with nothing in front of it that it could apply to. -/
  | danglingQuantifier (pos : Nat)
  /-- A pattern, group or alternative without content; the offset is where the content should be. -/
  | emptyExpression (pos : Nat)
  /-- A backslash at the end. -/
  | trailingEscape (pos : Nat)
  /-- A backslash in front of a byte that has no escaped meaning. -/
  | invalidEscape (pos : Nat) (byte : UInt8)
  /-- A group that starts with a question mark but is not a plain non-capturing one. -/
  | unsupportedGroup (pos : Nat)
  /-- An opening bracket that nothing closes. -/
  | unclosedClass (pos : Nat)
  /-- A range in brackets whose high end is lower than its low end or no single byte. -/
  | invalidClassRange (pos : Nat)
  /-- Braces that do not hold bounds, or a maximum below the minimum. -/
  | invalidRepetition (pos : Nat)
  /-- A bound above the limit; the offset is that of its first digit. -/
  | repetitionTooLarge (pos : Nat) (max : Nat)
  /-- A group inside more groups than the limit allows. -/
  | nestingTooDeep (pos : Nat) (max : Nat)
deriving DecidableEq

namespace PatternError

def pos : PatternError → Nat
  | unclosedParenthesis pos | unexpectedParenthesis pos | danglingQuantifier pos
  | emptyExpression pos | trailingEscape pos | invalidEscape pos _ | unsupportedGroup pos
  | unclosedClass pos | invalidClassRange pos | invalidRepetition pos
  | repetitionTooLarge pos _ | nestingTooDeep pos _ => pos

/-- What is wrong, without the place. -/
def complaint : PatternError → String
  | unclosedParenthesis _ => "unclosed parenthesis"
  | unexpectedParenthesis _ => "unexpected closing parenthesis"
  | danglingQuantifier _ => "quantifier without operand"
  | emptyExpression _ => "empty sub-expression"
  | trailingEscape _ => "pattern ends with an escape character"
  | invalidEscape _ byte =>
    "invalid escape sequence `\\" ++ String.singleton (Char.ofUInt8 byte) ++ "`"
  | unsupportedGroup _ => "unsupported group syntax"
  | unclosedClass _ => "unclosed character class"
  | invalidClassRange _ => "invalid range in character class"
  | invalidRepetition _ => "invalid repetition"
  | repetitionTooLarge _ max => "repetition count exceeds " ++ toString max
  | nestingTooDeep _ max => "groups nested more than " ++ toString max ++ " levels deep"

def message (e : PatternError) : String :=
  e.complaint ++ " at offset " ++ toString e.pos

end PatternError

end ByteRegex
