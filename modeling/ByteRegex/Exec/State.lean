import ByteRegex.Exec.Memo

/-!
# The matching machine

The machine executes a program on a subject. It tries choices one after the other, the preferred one
first, and keeps on a stack what it needs to take back a choice that leads nowhere. `State.step`
executes one instruction; taking back is part of the instruction that failed.
-/

namespace ByteRegex

/-- What a search is about: a program, a subject, and how large a table of states may be. -/
structure Task where
  program : Program
  subject : ByteArray
  maxTableSize : Nat

inductive Frame where
  /-- Try the other side of a split. -/
  | retry (address pos : Nat)
  /-- Give a slot back the offset that a `save` replaced. -/
  | restoreSlot (slot : Nat) (offset : Option Nat)
  /-- Give a loop back the start of the round that a `roundStart` replaced. -/
  | restoreRound (loop offset : Nat)
deriving DecidableEq

/-- The machine in the middle of an attempt. -/
structure State where
  /-- The address of the next instruction. -/
  address : Nat
  /-- The offset in the subject. -/
  pos : Nat
  /-- The largest offset of the attempt. -/
  maxPos : Nat
  /-- Where groups start and end, as far as the path has told. -/
  slots : Array (Option Nat)
  /-- Where the current round of each watched loop started. -/
  roundStarts : Array Nat
  /-- What to do when the path fails, the latest first. -/
  stack : List Frame
  memo : Memo

inductive Outcome where
  /-- There is another instruction to execute. -/
  | running (s : State)
  /-- The subject matches. -/
  | accepted (s : State)
  /-- No path is left. -/
  | failed (s : State)

namespace State

/-- Takes back what the stack `frames` tells, up to the latest split with a side left to try. -/
def backtrackTo (s : State) : (frames : List Frame) → Outcome
  | [] => .failed { s with stack := [] }
  | .retry address pos :: rest => .running { s with address := address, pos := pos, stack := rest }
  | .restoreSlot slot offset :: rest =>
    backtrackTo { s with slots := s.slots.setIfInBounds slot offset } rest
  | .restoreRound loop offset :: rest =>
    backtrackTo { s with roundStarts := s.roundStarts.setIfInBounds loop offset } rest

def backtrack (s : State) : Outcome :=
  s.backtrackTo s.stack

def goto (s : State) (address : Nat) : Outcome :=
  .running { s with address := address }

def require (s : State) (condition : Bool) : Outcome :=
  if condition then s.goto (s.address + 1) else s.backtrack

def read (s : State) (subject : ByteArray) (accepts : UInt8 → Bool) : Outcome :=
  if h : s.pos < subject.size then
    if accepts subject[s.pos] then
      let pos := s.pos + 1
      .running { s with address := s.address + 1, pos := pos, maxPos := max s.maxPos pos }
    else s.backtrack
  else s.backtrack

def save (s : State) (slot : Nat) : Outcome :=
  let frame := Frame.restoreSlot slot (s.slots.getD slot none)
  .running { s with
    address := s.address + 1
    slots := s.slots.setIfInBounds slot (some s.pos)
    stack := frame :: s.stack }

def startRound (s : State) (loop : Nat) : Outcome :=
  let frame := Frame.restoreRound loop (s.roundStarts.getD loop 0)
  .running { s with
    address := s.address + 1
    roundStarts := s.roundStarts.setIfInBounds loop s.pos
    stack := frame :: s.stack }

/-- Ends a round: leaves the loop if the round read nothing. -/
def endRound (s : State) (loop exit : Nat) : Outcome :=
  if s.roundStarts[loop]? = some s.pos then s.goto exit else s.goto (s.address + 1)

def choose (s : State) (first second : Nat) : Outcome :=
  .running { s with address := first, stack := .retry second s.pos :: s.stack }

def cell (s : State) (p : Program) (id : Nat) : Nat :=
  p.cellOf id s.pos (roundsAt p.loopParents s.roundStarts s.pos (p.splitScopes.getD id none))

/-- Executes a split, unless this state has been given up on before. The memory is taken out of the
state while it changes, so that its table has one owner and is changed in place. -/
def split (t : Task) (s : State) (id first second : Nat) : Outcome :=
  let cell := s.cell t.program id
  let memo := s.memo
  let s := { s with memo := .unused }
  let (isNew, memo) := memo.visit (t.program.tableSize t.subject.size) t.maxTableSize cell
  let s := { s with memo := memo }
  if isNew then s.choose first second else s.backtrack

def step (t : Task) (s : State) : Outcome :=
  if h : s.address < t.program.instrs.size then
    match t.program.instrs[s.address] with
    | .accept => .accepted s
    | .byte b => s.read t.subject (· == b)
    | .any => s.read t.subject (fun _ => true)
    | .oneOf set => s.read t.subject set.contains
    | .split id first second => s.split t id first second
    | .jump target => s.goto target
    | .save slot => s.save slot
    | .textStart => s.require (s.pos == 0)
    | .textEnd => s.require (s.pos == t.subject.size)
    | .roundStart loop => s.startRound loop
    | .roundEnd loop exit => s.endRound loop exit
  else s.backtrack

end State

end ByteRegex
