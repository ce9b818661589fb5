import ByteRegex.Program.Instr

/-!
# Blocks of code

Code is generated in blocks. A block knows the place where it stands, so its addresses and numbers
are final from the start, and blocks that follow one another are joined by appending. A block can
also be moved: the copy does at another place what the block does at its own.
-/

namespace ByteRegex

/-- A place in a program: how many instructions, splits and watched loops come before it. -/
structure Place where
  address : Nat
  splits : Nat
  loops : Nat
deriving DecidableEq

namespace Place

def start : Place := ⟨0, 0, 0⟩

/-- The place after one instruction that is neither a split nor the start of a round. -/
def next (p : Place) : Place := { p with address := p.address + 1 }

def nextSplit (p : Place) : Place := { p with address := p.address + 1, splits := p.splits + 1 }

end Place

/-- Code that stands at the place `start`, with the innermost watched loop around each of its splits
and directly around each of its loops. -/
structure Block where
  start : Place
  instrs : Array Instr
  splitScopes : Array (Option Nat)
  loopParents : Array (Option Nat)
deriving DecidableEq

namespace Block

def stop (b : Block) : Place :=
  { address := b.start.address + b.instrs.size
    splits := b.start.splits + b.splitScopes.size
    loops := b.start.loops + b.loopParents.size }

def nil (p : Place) : Block :=
  { start := p, instrs := #[], splitScopes := #[], loopParents := #[] }

/-- One instruction that is neither a split nor the start of a round. -/
def single (p : Place) (instr : Instr) : Block :=
  { start := p, instrs := #[instr], splitScopes := #[], loopParents := #[] }

def split (p : Place) (scope : Option Nat) (first second : Nat) : Block :=
  { start := p
    instrs := #[.split p.splits first second]
    splitScopes := #[scope]
    loopParents := #[] }

def roundStart (p : Place) (scope : Option Nat) : Block :=
  { start := p
    instrs := #[.roundStart p.loops]
    splitScopes := #[]
    loopParents := #[scope] }

def append (a b : Block) : Block :=
  { start := a.start
    instrs := a.instrs ++ b.instrs
    splitScopes := a.splitScopes ++ b.splitScopes
    loopParents := a.loopParents ++ b.loopParents }

instance : Append Block := ⟨append⟩

theorem start_append (a b : Block) : (a ++ b).start = a.start := rfl

theorem instrs_append (a b : Block) : (a ++ b).instrs = a.instrs ++ b.instrs := rfl

theorem splitScopes_append (a b : Block) :
    (a ++ b).splitScopes = a.splitScopes ++ b.splitScopes := rfl

theorem loopParents_append (a b : Block) :
    (a ++ b).loopParents = a.loopParents ++ b.loopParents := rfl

/-- Two blocks end where the second one does, if that stands right behind the first one. -/
theorem stop_append {a b : Block} (h : b.start = a.stop) : (a ++ b).stop = b.stop := by
  simp only [stop, h, start_append, instrs_append, splitScopes_append, loopParents_append,
    Array.size_append, Nat.add_assoc]

/-! ## Moving blocks -/

/-- Where the address or number `n` goes when what stands at `old` is moved to `new`. -/
def shift (old new n : Nat) : Nat :=
  n - old + new

/-- Where the number of a loop goes when code is moved from one place to another. The loops in the
code get the numbers of the new place; those around it stay what they are. -/
def moveLoop (old new : Place) (loop : Nat) : Nat :=
  if loop < old.loops then loop else shift old.loops new.loops loop

/-- An instruction as it reads when the code around it is moved from `old` to `new`. -/
def moveInstr (old new : Place) : Instr → Instr
  | .split id first second =>
    .split (shift old.splits new.splits id) (shift old.address new.address first)
      (shift old.address new.address second)
  | .jump target => .jump (shift old.address new.address target)
  | .roundStart loop => .roundStart (moveLoop old new loop)
  | .roundEnd loop exit => .roundEnd (moveLoop old new loop) (shift old.address new.address exit)
  | instr => instr

def moveTo (b : Block) (p : Place) : Block :=
  { start := p
    instrs := b.instrs.map (moveInstr b.start p)
    splitScopes := b.splitScopes.map (Option.map (moveLoop b.start p))
    loopParents := b.loopParents.map (Option.map (moveLoop b.start p)) }

end Block

end ByteRegex
