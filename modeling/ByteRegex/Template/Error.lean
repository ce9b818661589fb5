/-!
# Faults of templates
-/

namespace ByteRegex

/-- A template refers to a group that the pattern does not have. -/
structure TemplateError where
  /-- The group, or the largest 64-bit number if the group's number is larger still. -/
  group : Nat
  /-- The number of groups that the pattern has. -/
  captures : Nat
deriving DecidableEq

namespace TemplateError

def ofGroup (group captures : Nat) : TemplateError :=
  { group := min group ((1 <<< 64) - 1), captures := captures }

def message (e : TemplateError) : String :=
  "template references group $" ++ toString e.group ++ ", but the regexp has " ++
    toString e.captures ++ " capture groups"

end TemplateError

end ByteRegex
