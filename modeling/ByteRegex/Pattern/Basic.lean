import ByteRegex.Expr.Outline

/-!
# Patterns

A pattern that has been read: its expression and the number of its capturing groups.
-/

namespace ByteRegex

/-- A regular expression with the number of its capturing groups. The group 0, which is the whole
match, does not count. -/
structure Pattern where
  root : Expr
  captures : Nat

namespace Pattern

/-- An expression that was built by hand. Its groups need not be numbered in order, so there are as
many as the largest index says. -/
def ofExpr (root : Expr) : Pattern :=
  { root := root, captures := root.maxGroup }

def outline (p : Pattern) : String :=
  p.root.outlineTo (" regexp (" ++ toString p.captures ++ " captures)\n") "" true

end Pattern

end ByteRegex
