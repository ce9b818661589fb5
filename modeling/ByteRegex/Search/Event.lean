import ByteRegex.Search.Match

/-!
# Events

What happens on the way to an answer and can be logged.
-/

namespace ByteRegex

/-- How much a reader of the log has to be interested to see an event. -/
inductive LogLevel where
  | debug
  | trace
deriving DecidableEq

inductive Event where
  /-- A matcher was built from a pattern. -/
  | built (pattern : String) (size captures : Nat)
  /-- A search gave up its table of states: it has `cells` cells for each offset of a subject of the
  given length, and that is more than `maxCells` in all. -/
  | tableDropped (cells length maxCells : Nat)
  /-- A search reached its step limit. -/
  | stepLimitReached (limit : Nat)
  /-- A match was found. -/
  | found (span : Span)
deriving DecidableEq

namespace Event

def level : Event → LogLevel
  | built .. | tableDropped .. | stepLimitReached _ => .debug
  | found _ => .trace

def message : Event → String
  | built pattern size captures =>
    "machine for `" ++ pattern ++ "` built: " ++ toString size ++ " instructions, " ++
      toString captures ++ " capture groups"
  | tableDropped cells length maxCells =>
    "visited set for " ++ toString cells ++ " states per offset and " ++ toString length ++
      " bytes exceeds " ++ toString maxCells ++ " bits, not using it"
  | stepLimitReached limit => "step limit of " ++ toString limit ++ " exhausted"
  | found span => "match at " ++ toString span.start ++ ".." ++ toString span.stop

end Event

def LogLevel.text : LogLevel → String
  | debug => "DEBUG"
  | trace => "TRACE"

def Event.line (e : Event) : String :=
  e.level.text ++ " " ++ e.message

/-- A value, with what happened until it was there. -/
structure Logged (α : Type) where
  value : α
  events : List Event := []

end ByteRegex
