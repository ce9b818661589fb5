import ByteRegex.Pattern.Reader
import ByteRegex.Proofs.Text.Decimal
import Mathlib.Logic.Basic

/-!
# What faults blame

A fault names an offset. What has to stand there for the fault to be the right one is said here
about the bytes of the pattern, without the reader as far as possible.
-/

namespace ByteRegex

variable {limits : PatternLimits} {bytes : List UInt8}

theorem lt_length_of_getElem? {i : Nat} {b : UInt8} (h : bytes[i]? = some b) : i < bytes.length :=
  (List.getElem?_eq_some_iff.mp h).1

/-- The ways to write one end of a range, or an item that is no range. -/
inductive Escaped.Spelled : List UInt8 → Escaped → Prop where
  | plain (b : UInt8) (h : b ≠ '\\'.toUInt8) : Spelled [b] (.byte b)
  | escaped (b : UInt8) {e : Escaped} (h : ofByte? b = some e) : Spelled ['\\'.toUInt8, b] e

/-- Right after an opening bracket stand `bytes`, and what comes before their last part `rest` are
whole items, after the caret that negates if there is one. -/
inductive ItemsBefore : List UInt8 → List UInt8 → Prop where
  | start {rest : List UInt8} (h : rest.head? ≠ some '^'.toUInt8) : ItemsBefore rest rest
  | negated (rest : List UInt8) : ItemsBefore ('^'.toUInt8 :: rest) rest
  | set {bytes item rest : List UInt8} {s : ByteSet} (before : ItemsBefore bytes (item ++ rest))
      (hitem : Escaped.Spelled item (.set s)) : ItemsBefore bytes rest
  | byte {bytes item rest : List UInt8} {b : UInt8} (before : ItemsBefore bytes (item ++ rest))
      (hitem : Escaped.Spelled item (.byte b)) (hnext : rest.head? ≠ some '-'.toUInt8) :
      ItemsBefore bytes rest
  | range {bytes lows highs rest : List UInt8} {low high : UInt8}
      (before : ItemsBefore bytes (lows ++ '-'.toUInt8 :: (highs ++ rest)))
      (hlow : Escaped.Spelled lows (.byte low)) (hhigh : Escaped.Spelled highs (.byte high))
      (hle : low ≤ high) (hproper : highs ≠ [']'.toUInt8]) : ItemsBefore bytes rest

/-- At `pos` starts a range with the ends `lows` and `highs`, in the bracket expression that starts
at `opening`: whole items come before it, and a pattern that stopped at its dash would leave that
very bracket open. A closing bracket after the dash is no high end. -/
structure RangeAt (limits : PatternLimits) (bytes : List UInt8) (opening pos : Nat)
    (lows highs : List UInt8) : Prop where
  bracket : bytes[opening]? = some '['.toUInt8
  before : ItemsBefore (bytes.drop (opening + 1)) (bytes.drop pos)
  ends : ∃ rest, bytes.drop pos = lows ++ '-'.toUInt8 :: (highs ++ rest)
  proper : highs ≠ [']'.toUInt8]
  unclosed :
    Pattern.ofBytes limits (bytes.take (pos + lows.length + 1)) = .error (.unclosedClass opening)

namespace PatternError

/-- The fault is one that the bytes have, at the offset that it names. -/
def Blames (limits : PatternLimits) (bytes : List UInt8) : PatternError → Prop
  | unclosedParenthesis pos => bytes[pos]? = some '('.toUInt8
  | nestingTooDeep pos max => bytes[pos]? = some '('.toUInt8 ∧ max = limits.maxNesting
  | unsupportedGroup pos =>
    bytes[pos]? = some '('.toUInt8 ∧ bytes[pos + 1]? = some '?'.toUInt8 ∧
      bytes[pos + 2]? ≠ some ':'.toUInt8
  | unexpectedParenthesis pos =>
    bytes[pos]? = some ')'.toUInt8 ∧
      ∃ pattern, Pattern.ofBytes limits (bytes.take pos) = .ok pattern
  | danglingQuantifier pos => ∃ b ∈ ['*', '+', '?', '\x7b'].map Char.toUInt8, bytes[pos]? = some b
  | emptyExpression pos =>
    (pos = bytes.length ∨ ∃ b ∈ ['|', ')'].map Char.toUInt8, bytes[pos]? = some b) ∧
    (pos = 0 ∨ ∃ b ∈ ['(', '|', ':'].map Char.toUInt8, bytes[pos - 1]? = some b)
  | trailingEscape pos => bytes[pos]? = some '\\'.toUInt8 ∧ pos + 1 = bytes.length
  | invalidEscape pos byte =>
    bytes[pos]? = some '\\'.toUInt8 ∧ bytes[pos + 1]? = some byte ∧ Escaped.ofByte? byte = none
  | unclosedClass pos => bytes[pos]? = some '['.toUInt8
  | invalidClassRange pos => ∃ opening lows highs low,
    RangeAt limits bytes opening pos lows highs ∧ Escaped.Spelled lows (.byte low) ∧
    ((∃ high < low, Escaped.Spelled highs (.byte high)) ∨ ∃ s, Escaped.Spelled highs (.set s))
  | invalidRepetition pos => bytes[pos]? = some '\x7b'.toUInt8
  | repetitionTooLarge pos max =>
    max = limits.maxRepetitions ∧
    (0 < pos ∧ ∃ b ∈ ['\x7b', ','].map Char.toUInt8, bytes[pos - 1]? = some b) ∧
    max < Text.decimalValue ((bytes.drop pos).takeWhile Text.isDigit)

variable {e : PatternError}

/-- Only a missing expression can be at the very end. -/
theorem Blames.pos_lt (h : e.Blames limits bytes) (hne : ∀ pos, e ≠ .emptyExpression pos) :
    e.pos < bytes.length := by
  cases e with
  | unclosedParenthesis pos | unclosedClass pos | invalidRepetition pos =>
    exact lt_length_of_getElem? h
  | nestingTooDeep pos max | unsupportedGroup pos | unexpectedParenthesis pos | trailingEscape pos
  | invalidEscape pos byte => exact lt_length_of_getElem? h.1
  | danglingQuantifier pos =>
    obtain ⟨b, _, hb⟩ := h
    exact lt_length_of_getElem? hb
  | emptyExpression pos => exact absurd rfl (hne pos)
  | invalidClassRange pos =>
    obtain ⟨opening, lows, highs, low, hrange, _⟩ := h
    obtain ⟨rest, hends⟩ := hrange.ends
    refine Nat.lt_of_not_le fun (hle : bytes.length ≤ pos) => ?_
    rw [List.drop_eq_nil_of_le hle] at hends
    exact absurd hends (by simp)
  | repetitionTooLarge pos max =>
    obtain ⟨_, _, hvalue⟩ := h
    refine Nat.lt_of_not_le fun (hle : bytes.length ≤ pos) => ?_
    rw [List.drop_eq_nil_of_le hle] at hvalue
    exact absurd hvalue (Nat.not_lt_zero max)

theorem Blames.pos_le (h : e.Blames limits bytes) : e.pos ≤ bytes.length := by
  by_cases hne : ∀ pos, e ≠ .emptyExpression pos
  · exact Nat.le_of_lt (h.pos_lt hne)
  · obtain ⟨pos, hpos⟩ := not_forall.mp hne
    obtain rfl := not_not.mp hpos
    rcases h.1 with hend | ⟨b, _, hb⟩
    · exact Nat.le_of_eq hend
    · exact Nat.le_of_lt (lt_length_of_getElem? hb)

end PatternError

end ByteRegex
