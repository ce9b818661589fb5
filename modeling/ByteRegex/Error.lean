import ByteRegex.Pattern.Error
import ByteRegex.Program.Generator
import ByteRegex.Template.Error

/-!
# Errors

What can go wrong when a pattern is made into a matcher, and when a matcher is used.
-/

namespace ByteRegex

inductive RegexError where
  /-- The pattern cannot be read. -/
  | pattern (e : PatternError)
  /-- The program would be too large. -/
  | tooLarge (e : ProgramTooLarge)
  /-- The template does not fit the pattern. -/
  | template (e : TemplateError)
  /-- The search needs more instructions than it may execute. -/
  | stepLimit (limit : Nat)
deriving DecidableEq

namespace RegexError

def message : RegexError → String
  | pattern e => e.message
  | tooLarge e => e.message
  | template e => e.message
  | stepLimit limit => "search aborted after executing " ++ toString limit ++ " instructions"

end RegexError

end ByteRegex
