import ByteRegex.Program.Instr

/-!
# Programs

A program is its instructions together with two tables that tell how its watched loops are nested.
The machine may remember which states of a search it has already given up on; the layout of that
memory is part of the program, since it depends on nothing else.
-/

namespace ByteRegex

namespace Loops

/-- The loop directly around the loop `id`. An enclosing loop is always numbered before the loops
inside it; an entry that is not is left out, so that following the table comes to an end. -/
def parent? (parents : Array (Option Nat)) (id : Nat) : Option Nat :=
  match parents[id]? with
  | some (some outer) => if outer < id then some outer else none
  | _ => none

theorem lt_of_parent? {parents : Array (Option Nat)} {id outer : Nat}
    (h : parent? parents id = some outer) : outer < id := by
  unfold parent? at h
  split at h
  · split at h
    · simp_all
    · simp at h
  · simp at h

/-- The loop `innermost` and the loops around it, from the inside to the outside. -/
def chain (parents : Array (Option Nat)) : (innermost : Option Nat) → List Nat
  | none => []
  | some id =>
    match h : parent? parents id with
    | none => [id]
    | some outer => id :: chain parents (some outer)
termination_by innermost => innermost.elim 0 (· + 1)
decreasing_by exact Nat.succ_lt_succ (lt_of_parent? h)

theorem chain_none (parents : Array (Option Nat)) : chain parents none = [] := by
  rw [chain]

theorem chain_some (parents : Array (Option Nat)) (id : Nat) :
    chain parents (some id) = id :: chain parents (parent? parents id) := by
  rw [chain]
  split
  · next h => rw [h, chain_none]
  · next h => rw [h]

end Loops

/-- Where a machine remembers what it has given up on. Every offset of the subject has the same
number of cells. A split inside `n` watched loops has `n + 1` of them, one for each number of rounds
around it that have not read anything yet. -/
structure MemoLayout where
  /-- The first cell of each split. -/
  bases : Array Nat
  /-- The number of cells for each offset. -/
  cells : Nat
deriving DecidableEq

namespace MemoLayout

def addSplit (layout : MemoLayout) (enclosing : Nat) : MemoLayout :=
  { bases := layout.bases.push layout.cells, cells := layout.cells + (enclosing + 1) }

def ofScopes (parents scopes : Array (Option Nat)) : MemoLayout :=
  scopes.foldl (fun layout scope => layout.addSplit (Loops.chain parents scope).length)
    { bases := #[], cells := 0 }

end MemoLayout

structure Program where
  instrs : Array Instr
  /-- The number of capturing groups, without the whole match. -/
  captures : Nat
  /-- The innermost watched loop around each split. -/
  splitScopes : Array (Option Nat)
  /-- The watched loop directly around each watched loop. -/
  loopParents : Array (Option Nat)
  memo : MemoLayout
deriving DecidableEq

namespace Program

def ofCode (instrs : Array Instr) (captures : Nat) (splitScopes loopParents : Array (Option Nat)) :
    Program :=
  { instrs := instrs
    captures := captures
    splitScopes := splitScopes
    loopParents := loopParents
    memo := .ofScopes loopParents splitScopes }

def size (p : Program) : Nat :=
  p.instrs.size

def slotCount (p : Program) : Nat :=
  2 * (p.captures + 1)

def splitCount (p : Program) : Nat :=
  p.splitScopes.size

def loopCount (p : Program) : Nat :=
  p.loopParents.size

end Program

end ByteRegex
