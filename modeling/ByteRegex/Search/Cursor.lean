import ByteRegex.Search.Matcher

/-!
# Cursors

A cursor holds the place that a search of one subject has got to, so that the search can be taken up
again later, by a matcher with another step limit for instance.
-/

namespace ByteRegex

/-- The last match found, and whether there is none behind it. -/
structure SearchCursor where
  current : Option Match := none
  exhausted : Bool := false
deriving DecidableEq

structure CursorStep where
  found : Except RegexError Bool
  events : List Event
  cursor : SearchCursor

namespace SearchCursor

def initial : SearchCursor := {}

def reset (_ : SearchCursor) : SearchCursor := initial

def atEnd : SearchCursor := { current := none, exhausted := true }

def nextStart? (cursor : SearchCursor) (length : Nat) : Option Nat :=
  match cursor.current with
  | none => some 0
  | some m => m.nextStart? length

end SearchCursor

namespace Matcher

/-- Moves the cursor to the next match of the subject. A search that is not global is for the first
match only, and has nothing to do once the cursor is on a match. A search that fails leaves the
cursor where it is. -/
def advance (m : Matcher) (subject : ByteArray) (cursor : SearchCursor) (isGlobal : Bool) :
    CursorStep :=
  if cursor.exhausted || (!isGlobal && cursor.current.isSome) then
    { found := .ok false, events := [], cursor := cursor }
  else
    match cursor.nextStart? subject.size with
    | none => { found := .ok false, events := [], cursor := .atEnd }
    | some start =>
      let answer := m.findAt subject start
      match answer.value with
      | .error e => { found := .error e, events := answer.events, cursor := cursor }
      | .ok none => { found := .ok false, events := answer.events, cursor := .atEnd }
      | .ok (some found) =>
        { found := .ok true
          events := answer.events
          cursor := { current := some found, exhausted := false } }

end Matcher

end ByteRegex
