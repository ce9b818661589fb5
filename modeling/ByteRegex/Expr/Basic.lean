import ByteRegex.ByteSet.Basic

/-!
# Regular expressions

The expressions that a pattern denotes, and the facts about them that the other modules need: their
direct parts, the largest number of a group, and whether they can match without reading a byte.
-/

namespace ByteRegex

/-- Which of its choices a quantifier tries first: one more round, or going on without it. -/
inductive Greed where
  | greedy
  | lazy
deriving DecidableEq

/-- A regular expression over bytes. -/
inductive Expr where
  /-- One given byte. -/
  | byte (b : UInt8)
  /-- Any byte. -/
  | any
  /-- A byte of a set. -/
  | oneOf (s : ByteSet)
  /-- Nothing, at the start of the subject. -/
  | textStart
  /-- Nothing, at the end of the subject. -/
  | textEnd
  /-- The parts one after the other. -/
  | concat (es : List Expr)
  /-- One of the parts; the ones further left are preferred. -/
  | alternate (es : List Expr)
  /-- Any number of times. -/
  | star (e : Expr) (greed : Greed)
  /-- At least once. -/
  | plus (e : Expr) (greed : Greed)
  /-- Once or not at all. -/
  | optional (e : Expr) (greed : Greed)
  /-- At least `min` times, and at most `max` times if there is a maximum. -/
  | repeated (e : Expr) (min : Nat) (max : Option Nat) (greed : Greed)
  /-- A part in parentheses. With an index the span that it matches is captured. -/
  | group (e : Expr) (index : Option Nat)

namespace Expr

def children : Expr → List Expr
  | byte _ | any | oneOf _ | textStart | textEnd => []
  | concat es | alternate es => es
  | star e _ | plus e _ | optional e _ | repeated e _ _ _ | group e _ => [e]

mutual

/-- The larger of `bound` and the largest index of a capturing group in the expression. The bound is
carried along so that long lists of parts take no room on the stack. -/
def maxGroupFrom (bound : Nat) : Expr → Nat
  | byte _ | any | oneOf _ | textStart | textEnd => bound
  | concat es | alternate es => maxGroupFromAll bound es
  | star e _ | plus e _ | optional e _ | repeated e _ _ _ => e.maxGroupFrom bound
  | group e index => e.maxGroupFrom (max bound (index.getD 0))

def maxGroupFromAll (bound : Nat) : List Expr → Nat
  | [] => bound
  | e :: es => maxGroupFromAll (e.maxGroupFrom bound) es

end

def maxGroup (e : Expr) : Nat :=
  e.maxGroupFrom 0

mutual

/-- Whether the expression can match without reading a byte. -/
def nullable : Expr → Bool
  | byte _ | any | oneOf _ => false
  | textStart | textEnd => true
  | concat es => allNullable es
  | alternate es => anyNullable es
  | star _ _ | optional _ _ => true
  | plus e _ | group e _ => e.nullable
  | repeated e min _ _ => min == 0 || e.nullable

def allNullable : List Expr → Bool
  | [] => true
  | e :: es => e.nullable && allNullable es

def anyNullable : List Expr → Bool
  | [] => false
  | e :: es => e.nullable || anyNullable es

end

end Expr

end ByteRegex
