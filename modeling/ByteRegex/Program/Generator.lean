import ByteRegex.Expr.Basic
import ByteRegex.Pattern.Basic
import ByteRegex.Program.Basic
import ByteRegex.Program.Block

/-!
# Generating code

Every kind of expression has a generator that makes its code out of the code of its parts. A loop
whose body can match without reading anything is watched: its rounds are put between `roundStart`
and `roundEnd`, so that a round that reads nothing is the last one. Every other loop reads something
in each round.

No instruction is generated at an address at or above the size limit.
-/

namespace ByteRegex

structure ProgramTooLarge where
  limit : Nat
deriving DecidableEq

namespace ProgramTooLarge

def message (e : ProgramTooLarge) : String :=
  "regexp too large, it exceeds " ++ toString e.limit ++ " instructions"

end ProgramTooLarge

def Block.within (limit : Nat) (b : Block) : Except ProgramTooLarge Block :=
  if b.stop.address ≤ limit then .ok b else .error ⟨limit⟩

/-- The split of a choice between going on at `prefer`, which a greedy choice tries first, and at
`other`. -/
def Greed.split (greed : Greed) (p : Place) (scope : Option Nat) (prefer other : Nat) : Block :=
  match greed with
  | .greedy => .split p scope prefer other
  | .lazy => .split p scope other prefer

/-- Makes code for a place inside the watched loop `scope`, if any. -/
abbrev Generator := (p : Place) → (scope : Option Nat) → Except ProgramTooLarge Block

namespace Generator

def single (limit : Nat) (instr : Instr) : Generator := fun p _ =>
  (Block.single p instr).within limit

def nothing : Generator := fun p _ => .ok (.nil p)

def between (limit : Nat) (before after : Instr) (g : Generator) : Generator := fun p scope => do
  let a ← single limit before p scope
  let body ← g a.stop scope
  let b ← single limit after body.stop scope
  return a ++ body ++ b

/-- The round of a loop: the body `g`, which is watched if it can match without reading anything.
What follows the round is one instruction that goes back to the next round or on behind the loop, so
the loop is left two addresses after the end of the round. -/
def round (limit : Nat) (nullable : Bool) (g : Generator) : Generator := fun p scope =>
  if nullable then do
    let a ← (Block.roundStart p scope).within limit
    let body ← g a.stop (some p.loops)
    let b ← single limit (.roundEnd p.loops (body.stop.address + 2)) body.stop scope
    return a ++ body ++ b
  else g p scope

/-- Any number of rounds: a choice before each round, and a jump back to the choice after it. -/
def star (limit : Nat) (nullable : Bool) (greed : Greed) (g : Generator) : Generator :=
  fun p scope => do
  let body ← round limit nullable g p.nextSplit scope
  let back ← single limit (.jump p.address) body.stop scope
  let choice ← (greed.split p scope p.nextSplit.address back.stop.address).within limit
  return choice ++ body ++ back

/-- At least one round: a choice after each round. -/
def plus (limit : Nat) (nullable : Bool) (greed : Greed) (g : Generator) : Generator :=
  fun p scope => do
  let body ← round limit nullable g p scope
  let choice ←
    (greed.split body.stop scope p.address body.stop.nextSplit.address).within limit
  return body ++ choice

def optional (limit : Nat) (greed : Greed) (g : Generator) : Generator := fun p scope => do
  let body ← g p.nextSplit scope
  let choice ← (greed.split p scope p.nextSplit.address body.stop.address).within limit
  return choice ++ body

/-! ## Repetitions

The code of the repeated part is generated once and then copied, since parts can be large and counts
high. -/

def addCopies (limit : Nat) (part : Block) (code : Block) : Nat → Except ProgramTooLarge Block
  | 0 => .ok code
  | n + 1 =>
    if part.instrs.isEmpty then .ok code
    else do
      let copy ← (part.moveTo code.stop).within limit
      addCopies limit part (code ++ copy) n

/-- Adds `n` copies of `part` to `code`, each of them after a choice between it and `exit`. -/
def addOptionalCopies (limit : Nat) (greed : Greed) (scope : Option Nat) (exit : Nat) (part : Block)
    (code : Block) : Nat → Except ProgramTooLarge Block
  | 0 => .ok code
  | n + 1 => do
    let choice ← (greed.split code.stop scope code.stop.nextSplit.address exit).within limit
    let copy ← (part.moveTo choice.stop).within limit
    addOptionalCopies limit greed scope exit part (code ++ choice ++ copy) n

/-- The address behind `n` copies of `part` that stand at the address `start`, each with a choice in
front of it. -/
def exitOfCopies (part : Block) (start n : Nat) : Nat :=
  start + n * (part.instrs.size + 1)

/-- At least `min` times, and at most `max` times if there is a maximum. Without maximum the last
mandatory part is the body of a loop. A maximum below the minimum allows nothing beyond the
minimum. -/
def repeated (limit : Nat) (nullable : Bool) (min : Nat) (max : Option Nat) (greed : Greed)
    (g : Generator) : Generator := fun p scope =>
  match min, max with
  | 0, none => star limit nullable greed g p scope
  | 0, some 0 => nothing p scope
  | 1, none => plus limit nullable greed g p scope
  | min, none => do
    let part ← g p scope
    let code ← addCopies limit part part (min - 2)
    let rest ← plus limit nullable greed g code.stop scope
    return code ++ rest
  | 0, some max => do
    let part ← g p.nextSplit scope
    let exit := exitOfCopies part p.address max
    let choice ← (greed.split p scope p.nextSplit.address exit).within limit
    addOptionalCopies limit greed scope exit part (choice ++ part) (max - 1)
  | min, some max => do
    let part ← g p scope
    let code ← addCopies limit part part (min - 1)
    let exit := exitOfCopies part code.stop.address (max - min)
    addOptionalCopies limit greed scope exit part code (max - min)

/-! ## Alternatives -/

/-- Adds the code of alternatives to `code`. Before each of them but the last a choice stands, and
after it a jump to `exit`, behind them all. -/
def joinBranches (scope : Option Nat) (exit : Nat) (code : Block) : List Block → Block
  | [] => code
  | [last] => code ++ last
  | branch :: rest =>
    let choice := Block.split code.stop scope branch.start.address (branch.stop.address + 1)
    let jump := Block.single branch.stop (.jump exit)
    joinBranches scope exit (code ++ choice ++ branch ++ jump) rest

/-- The code of alternatives that have been generated from the place `p` on, with room for what
stands between them. -/
def joined (p : Place) (scope : Option Nat) (branches : List Block) : Block :=
  joinBranches scope ((branches.getLast?.map (·.stop.address)).getD p.address) (.nil p) branches

end Generator

namespace Expr

mutual

def generator (limit : Nat) : Expr → Generator
  | byte b => .single limit (.byte b)
  | any => .single limit .any
  | oneOf s => .single limit (.oneOf s)
  | textStart => .single limit .textStart
  | textEnd => .single limit .textEnd
  | concat es => fun p scope => addSequence limit scope (.nil p) es
  | alternate es => fun p scope => do
    let branches ← addBranches limit scope #[] p es
    return Generator.joined p scope branches.toList
  | star e greed => .star limit e.nullable greed (e.generator limit)
  | plus e greed => .plus limit e.nullable greed (e.generator limit)
  | optional e greed => .optional limit greed (e.generator limit)
  | repeated e min max greed => .repeated limit e.nullable min max greed (e.generator limit)
  | group e (some index) =>
    .between limit (.save (2 * index)) (.save (2 * index + 1)) (e.generator limit)
  | group e none => e.generator limit

def addSequence (limit : Nat) (scope : Option Nat) (code : Block) :
    List Expr → Except ProgramTooLarge Block
  | [] => .ok code
  | e :: es => do
    let part ← e.generator limit code.stop scope
    addSequence limit scope (code ++ part) es

/-- Adds the code of alternatives, the first of which stands at the place `p`, to `branches`. The
room for a split in front of each alternative but the last, and for a jump behind it, is left
free. -/
def addBranches (limit : Nat) (scope : Option Nat) (branches : Array Block) (p : Place) :
    List Expr → Except ProgramTooLarge (Array Block)
  | [] => .ok branches
  | [e] => do
    let last ← e.generator limit p scope
    return branches.push last
  | e :: es => do
    let branch ← e.generator limit p.nextSplit scope
    let jump ← (Block.single branch.stop (.jump 0)).within limit
    addBranches limit scope (branches.push branch) jump.stop es

end

end Expr

namespace Program

/-- The program of a pattern: it records where the match starts and where it ends, and accepts. -/
def ofPattern (limit : Nat) (pattern : Pattern) : Except ProgramTooLarge Program := do
  let code ← Generator.between limit (.save 0) (.save 1) (pattern.root.generator limit) .start none
  let accept ← Generator.single limit .accept code.stop none
  let code := code ++ accept
  return .ofCode code.instrs pattern.captures code.splitScopes code.loopParents

end Program

end ByteRegex
