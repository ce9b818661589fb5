import ByteRegex.Exec.State

/-!
# Runs of the machine

A run executes instructions until the subject matches, no path is left, or the next instruction
would be one more than a ceiling allows. The ceiling counts all the instructions of a search, which
may consist of several runs.
-/

namespace ByteRegex

inductive Ceiling where
  /-- At most `n`. -/
  | steps (n : Nat)
  /-- More than a program of `size` instructions ever executes on a subject of `length` bytes. -/
  | beyond (size length : Nat)
deriving DecidableEq

namespace Ceiling

/-- Nested loops can make the machine execute a number of instructions that is exponential in a
power of the length of the subject, but no more than that. -/
def value : Ceiling → Nat
  | steps n => n
  | beyond size length => Nat.pow 2 (Nat.pow (length + 2) (size + 6))

/-- Whether another instruction may be executed after `n` of them. A ceiling that is never reached
is not worked out either, as long as `n` is of any practical size. -/
def allows (c : Ceiling) (n : Nat) : Bool :=
  match c with
  | steps max => n < max
  | beyond .. => n < 1 <<< 64 || n < c.value

theorem shiftLeft_le_value_beyond (size length : Nat) : 1 <<< 64 ≤ (beyond size length).value := by
  have hexponent : 64 ≤ Nat.pow (length + 2) (size + 6) :=
    calc
      64 = Nat.pow 2 6 := rfl
      _ ≤ Nat.pow 2 (size + 6) := Nat.pow_le_pow_right (by decide) (Nat.le_add_left 6 size)
      _ ≤ Nat.pow (length + 2) (size + 6) := Nat.pow_le_pow_left (Nat.le_add_left 2 length) _
  calc
    1 <<< 64 = Nat.pow 2 64 := rfl
    _ ≤ (beyond size length).value := Nat.pow_le_pow_right (by decide) hexponent

theorem allows_iff (c : Ceiling) (n : Nat) : c.allows n = true ↔ n < c.value := by
  cases c with
  | steps max => simp [allows, value]
  | beyond size length =>
    have hle := shiftLeft_le_value_beyond size length
    simp only [allows, Bool.or_eq_true, decide_eq_true_eq]
    exact ⟨fun h => h.elim (fun hn => Nat.lt_of_lt_of_le hn hle) id, Or.inr⟩

end Ceiling

/-- How a run ends, with the last state and the number of instructions executed so far. -/
inductive RunResult where
  /-- The subject matches. -/
  | accepted (s : State) (steps : Nat)
  /-- No path is left. -/
  | failed (s : State) (steps : Nat)
  /-- The ceiling allows no further instruction. -/
  | stopped (s : State) (steps : Nat)

namespace State

/-- Runs the machine from the state `s`, after `steps` instructions. -/
def run (t : Task) (ceiling : Ceiling) (steps : Nat) (s : State) : RunResult :=
  if h : ceiling.allows steps then
    match s.step t with
    | .running s =>
      have : ceiling.value - (steps + 1) < ceiling.value - steps := by
        have := (ceiling.allows_iff steps).mp h
        omega
      run t ceiling (steps + 1) s
    | .accepted s => .accepted s (steps + 1)
    | .failed s => .failed s (steps + 1)
  else .stopped s steps
termination_by ceiling.value - steps

end State

/-- What the attempts of a search hand on to one another: where rounds started, and the memory. -/
structure Trail where
  roundStarts : Array Nat
  memo : Memo

namespace Trail

def initial (p : Program) : Trail :=
  { roundStarts := Array.replicate p.loopCount 0, memo := .unused }

def begin (trail : Trail) (p : Program) (start : Nat) : State :=
  { address := 0
    pos := start
    maxPos := start
    slots := Array.replicate p.slotCount none
    roundStarts := trail.roundStarts
    stack := []
    memo := trail.memo }

end Trail

inductive AttemptEnd where
  /-- The subject matches from the offset on, with these slots. -/
  | accepted (slots : Array (Option Nat))
  /-- The subject does not match from the offset on. -/
  | failed
  /-- The ceiling was reached. -/
  | stopped

/-- An attempt: how it ended, what it hands on, and the number of instructions executed so far. -/
structure Attempt where
  result : AttemptEnd
  trail : Trail
  steps : Nat

namespace Trail

/-- Attempts a match that starts exactly at `start`, after `steps` instructions. The states that led
to a match have not been given up on, so the memory of the offsets that the attempt covered is
cleared. -/
def attempt (trail : Trail) (t : Task) (ceiling : Ceiling) (steps start : Nat) : Attempt :=
  match (trail.begin t.program start).run t ceiling steps with
  | .accepted s steps =>
    { result := .accepted s.slots
      trail := {
        roundStarts := s.roundStarts
        memo := s.memo.forget t.program.memo.cells start s.maxPos }
      steps := steps }
  | .failed s steps =>
    { result := .failed, trail := { roundStarts := s.roundStarts, memo := s.memo }, steps := steps }
  | .stopped s steps =>
    { result := .stopped, trail := { roundStarts := s.roundStarts, memo := s.memo },
      steps := steps }

end Trail

end ByteRegex
