import ByteRegex.ByteSet.Basic

/-!
# Instructions

What the matching machine executes. Instructions refer to one another by address, to captures by
slot, and to the loops whose rounds have to be watched by number.
-/

namespace ByteRegex

inductive Instr where
  /-- The subject matches. -/
  | accept
  /-- Reads the given byte. -/
  | byte (b : UInt8)
  /-- Reads any byte. -/
  | any
  /-- Reads a byte of the set. -/
  | oneOf (s : ByteSet)
  /-- Goes on at `first`, and at `second` should that path fail. Every split of a program has an id
  of its own. -/
  | split (id first second : Nat)
  /-- Goes on at `target`. -/
  | jump (target : Nat)
  /-- Records the offset in a slot. -/
  | save (slot : Nat)
  /-- Goes on only at the start of the subject. -/
  | textStart
  /-- Goes on only at the end of the subject. -/
  | textEnd
  /-- Records the offset where a round of the loop starts. -/
  | roundStart (loop : Nat)
  /-- Ends a round of the loop. After a round that read nothing the machine goes on at `exit`,
  behind the loop, with the captures of that round; after any other it goes on here. -/
  | roundEnd (loop exit : Nat)
deriving DecidableEq

end ByteRegex
