/-!
# Matches

A match tells which part of a subject an expression matches, and which parts its groups match.
-/

namespace ByteRegex

/-- The part of a subject from the offset `start` up to, but not including, the offset `stop`. -/
structure Span where
  start : Nat
  stop : Nat
deriving DecidableEq

namespace Span

def isEmpty (s : Span) : Bool :=
  s.stop ≤ s.start

def bytes? (s : Span) (subject : ByteArray) : Option ByteArray :=
  if s.start ≤ s.stop ∧ s.stop ≤ subject.size then some (subject.extract s.start s.stop) else none

end Span

/-- A match: the span of the whole expression, and those of the groups from 1 on. A group that the
match did not pass through has none. -/
structure Match where
  span : Span
  groups : List (Option Span)
deriving DecidableEq

namespace Match

def spanOfSlots? (slots : Array (Option Nat)) (group : Nat) : Option Span :=
  match slots.getD (2 * group) none, slots.getD (2 * group + 1) none with
  | some start, some stop => some ⟨start, stop⟩
  | _, _ => none

def ofSlots? (slots : Array (Option Nat)) : Option Match :=
  (spanOfSlots? slots 0).map fun span =>
    { span := span
      groups := (List.range' 1 (slots.size / 2 - 1)).map (spanOfSlots? slots) }

/-- The span of a group. The group 0 is the whole match. -/
def group? (m : Match) : Nat → Option Span
  | 0 => some m.span
  | index + 1 => m.groups[index]?.join

/-- Where the search for the match after this one starts: at its end, or one byte behind its start
if it is empty. There is no such place once that is behind the subject. -/
def nextStart? (m : Match) (length : Nat) : Option Nat :=
  let start := max m.span.stop (m.span.start + 1)
  if start ≤ length then some start else none

end Match

end ByteRegex
