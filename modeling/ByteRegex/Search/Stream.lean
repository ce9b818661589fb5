import ByteRegex.Search.Matcher

/-!
# All the matches of a subject

A stream yields the matches of a subject from left to right. They do not overlap, and each of them
starts behind the start of the one before it.
-/

namespace ByteRegex

/-- The matches of a subject that are still to come. -/
structure MatchStream where
  matcher : Matcher
  subject : ByteArray
  trail : Trail
  /-- Where the next search starts, if there is to be one. -/
  nextStart : Option Nat

structure StreamStep where
  /-- A match, an error that ends the stream, or nothing at its end. -/
  item : Option (Except RegexError Match)
  events : List Event
  rest : MatchStream

namespace Matcher

def stream (m : Matcher) (subject : ByteArray) : MatchStream :=
  { matcher := m, subject := subject, trail := .initial m.program, nextStart := some 0 }

end Matcher

namespace MatchStream

/-- Yields the next match. What the search remembers is handed on to the next one; the count of its
instructions is not. -/
def next (stream : MatchStream) : StreamStep :=
  match stream with
  | ⟨_, _, _, none⟩ => { item := none, events := [], rest := stream }
  | ⟨matcher, subject, trail, some start⟩ =>
    let isFirst := trail.memo.isUnused
    let search := matcher.search subject trail start
    let events := matcher.events subject isFirst search
    let answer := matcher.answer search
    let rest (nextStart : Option Nat) : MatchStream := ⟨matcher, subject, search.trail, nextStart⟩
    match answer with
    | .ok (some found) =>
      { item := some (.ok found), events := events, rest := rest (found.nextStart? subject.size) }
    | .ok none => { item := none, events := events, rest := rest none }
    | .error e => { item := some (.error e), events := events, rest := rest none }

/-- The items that at most `n` calls of `next` yield, up to the end of the stream, after `items`. -/
def collect (stream : MatchStream) (items : Array (Except RegexError Match))
    (events : Array Event) :
    (n : Nat) → Logged (List (Except RegexError Match))
  | 0 => { value := items.toList, events := events.toList }
  | n + 1 =>
    match stream.next with
    | ⟨none, moreEvents, _⟩ =>
      { value := items.toList, events := (events ++ moreEvents).toList }
    | ⟨some item, moreEvents, rest⟩ =>
      collect rest (items.push item) (events ++ moreEvents) n

def take (stream : MatchStream) (n : Nat) : Logged (List (Except RegexError Match)) :=
  stream.collect #[] #[] n

/-- More calls of `next` than it takes to get to the end: the starts of the matches grow, and at
most one error follows them. -/
def callBound (stream : MatchStream) : Nat :=
  stream.subject.size + 3

def toList (stream : MatchStream) : Logged (List (Except RegexError Match)) :=
  stream.take stream.callBound

end MatchStream

end ByteRegex
