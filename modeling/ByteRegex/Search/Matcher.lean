import ByteRegex.Error
import ByteRegex.Exec.Run
import ByteRegex.Limits.Basic
import ByteRegex.Search.Event

/-!
# Matchers

A matcher is a program with the limits to run it under. It finds the leftmost match in a subject by
attempting one at every offset in turn. The attempts of a search share what they remember, and their
instructions are counted together.
-/

namespace ByteRegex

structure Matcher where
  program : Program
  limits : Limits

inductive SearchEnd where
  /-- A match was found. -/
  | found (m : Match)
  /-- There is no match. -/
  | absent
  /-- The ceiling was reached. -/
  | stopped

/-- A search from one offset: how it ended, what it hands on to later searches of the subject, and
the number of instructions it executed. -/
structure Search where
  result : SearchEnd
  trail : Trail
  steps : Nat

namespace Search

/-- Attempts a match at `start`, and at the offsets behind it until there is one, after `steps`
instructions. -/
def scan (t : Task) (ceiling : Ceiling) (start : Nat) (trail : Trail) (steps : Nat) : Search :=
  if start ≤ t.subject.size then
    match trail.attempt t ceiling steps start with
    | ⟨.accepted slots, trail, steps⟩ =>
      { result := ((Match.ofSlots? slots).map .found).getD .absent, trail := trail, steps := steps }
    | ⟨.failed, trail, steps⟩ => scan t ceiling (start + 1) trail steps
    | ⟨.stopped, trail, steps⟩ => { result := .stopped, trail := trail, steps := steps }
  else { result := .absent, trail := trail, steps := steps }
termination_by t.subject.size + 1 - start

end Search

namespace Matcher

def build (limits : Limits) (pattern : String) : Logged (Except RegexError Matcher) :=
  match Pattern.ofText limits.pattern pattern with
  | .error e => { value := .error (.pattern e) }
  | .ok p =>
    match Program.ofPattern limits.maxProgramSize p with
    | .error e => { value := .error (.tooLarge e) }
    | .ok program =>
      { value := .ok { program := program, limits := limits }
        events := [.built pattern program.size program.captures] }

def withStepLimit (m : Matcher) (limit : Option Nat) : Matcher :=
  { m with limits := { m.limits with stepLimit := limit } }

def captureCount (m : Matcher) : Nat :=
  m.program.captures

def task (m : Matcher) (subject : ByteArray) : Task :=
  { program := m.program, subject := subject, maxTableSize := m.limits.maxVisitedBits }

/-- How many instructions a search may execute. Without step limit it comes to an end by itself. -/
def ceiling (m : Matcher) (subject : ByteArray) : Ceiling :=
  match m.limits.stepLimit with
  | some limit => .steps limit
  | none => .beyond m.program.size subject.size

/-- The events of a search; `isFirst` tells that no search before it tried to remember anything. -/
def events (m : Matcher) (subject : ByteArray) (isFirst : Bool) (search : Search) : List Event :=
  let dropped :=
    if isFirst && search.trail.memo.isDropped then
      [.tableDropped m.program.memo.cells subject.size m.limits.maxVisitedBits]
    else []
  let ended := match search.result, m.limits.stepLimit with
    | .found found, _ => [.found found.span]
    | .stopped, some limit => [.stepLimitReached limit]
    | _, _ => []
  dropped ++ ended

def answer (m : Matcher) (search : Search) : Except RegexError (Option Match) :=
  match search.result, m.limits.stepLimit with
  | .found found, _ => .ok (some found)
  | .stopped, some limit => .error (.stepLimit limit)
  | _, _ => .ok none

def search (m : Matcher) (subject : ByteArray) (trail : Trail) (start : Nat) : Search :=
  Search.scan (m.task subject) (m.ceiling subject) start trail 0

/-- The leftmost match that starts at `start` or behind it. -/
def findAt (m : Matcher) (subject : ByteArray) (start : Nat) :
    Logged (Except RegexError (Option Match)) :=
  let search := m.search subject (.initial m.program) start
  { value := m.answer search, events := m.events subject true search }

def find (m : Matcher) (subject : ByteArray) : Logged (Except RegexError (Option Match)) :=
  m.findAt subject 0

def isMatch (m : Matcher) (subject : ByteArray) : Logged (Except RegexError Bool) :=
  let found := m.find subject
  { value := found.value.map Option.isSome, events := found.events }

end Matcher

end ByteRegex
