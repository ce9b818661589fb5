import ByteRegex.ByteSet.Ranges
import ByteRegex.Expr.Basic

/-!
# Outlines of expressions

An outline has one line for each node, parents before their parts. The line is made of a rail for
every level above the node, a branch mark, and the node's label; the rail shows which of the levels
above have more nodes to come.
-/

namespace ByteRegex

def Greed.suffix : Greed → String
  | .greedy => ""
  | .lazy => " (lazy)"

namespace Expr

def boundsText (min : Nat) : Option Nat → String
  | none => "\x7b" ++ toString min ++ ",\x7d"
  | some max =>
    if max = min then "\x7b" ++ toString min ++ "\x7d"
    else "\x7b" ++ toString min ++ "," ++ toString max ++ "\x7d"

/-- Whether a byte is shown as a character as well: the visible ASCII characters, without the
space. -/
def isVisible (b : UInt8) : Bool :=
  '!'.toUInt8 ≤ b && b ≤ '~'.toUInt8

def byteLabel (b : UInt8) : String :=
  let code := "literal " ++ Text.hexByte b
  if isVisible b then code ++ " '" ++ String.singleton (Char.ofUInt8 b) ++ "'" else code

def label : Expr → String
  | byte b => byteLabel b
  | any => "any_byte"
  | oneOf s => "class " ++ s.text
  | textStart => "start"
  | textEnd => "end"
  | concat _ => "concat"
  | alternate _ => "alternate"
  | star _ greed => "star" ++ greed.suffix
  | plus _ greed => "plus" ++ greed.suffix
  | optional _ greed => "optional" ++ greed.suffix
  | repeated _ min max greed => "repeat " ++ boundsText min max ++ greed.suffix
  | group _ (some index) => "group " ++ toString index
  | group _ none => "group (non-capturing)"

def branchMark (isLast : Bool) : String :=
  if isLast then " └─" else " ├─"

def railBelow (rail : String) (isLast : Bool) : String :=
  rail ++ (if isLast then "   " else " │ ")

mutual

def outlineTo (text rail : String) (isLast : Bool) (e : Expr) : String :=
  let text := text ++ rail ++ branchMark isLast ++ " " ++ e.label ++ "\n"
  let below := railBelow rail isLast
  match e with
  | byte _ | any | oneOf _ | textStart | textEnd => text
  | concat es | alternate es => outlineAllTo text below es
  | star e _ | plus e _ | optional e _ | repeated e _ _ _ | group e _ =>
    e.outlineTo text below true

/-- Adds the lines of expressions that stand on one level, the last of which ends it. -/
def outlineAllTo (text rail : String) : List Expr → String
  | [] => text
  | e :: es => outlineAllTo (e.outlineTo text rail es.isEmpty) rail es

end

end Expr

end ByteRegex
