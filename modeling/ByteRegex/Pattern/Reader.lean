import ByteRegex.Pattern.Basic
import ByteRegex.Pattern.Bounds
import ByteRegex.Pattern.Bracket
import ByteRegex.Pattern.Mark

/-!
# Reading patterns

A pattern is read one byte at a time, from left to right, by `PatternReader.feed`; what is still
open is kept in a stack of groups rather than in nested calls. Whether a pattern is acceptable so
far is then a matter of the bytes so far alone, and a fault that a byte causes stays the fault of
the pattern whatever follows. `PatternReader.finish` adds the faults that only the end of the
pattern brings to light.
-/

namespace ByteRegex

structure PatternLimits where
  /-- The largest bound of a repetition. -/
  maxRepetitions : Nat := 1000
  /-- The largest number of groups inside one another. -/
  maxNesting : Nat := 128
deriving DecidableEq

inductive Quantifier where
  | star
  | plus
  | optional
  | repeated (min : Nat) (max : Option Nat)
deriving DecidableEq

def Quantifier.apply (q : Quantifier) (e : Expr) (greed : Greed) : Expr :=
  match q with
  | star => .star e greed
  | plus => .plus e greed
  | optional => .optional e greed
  | repeated min max => .repeated e min max greed

/-- The latest piece of a branch, together with what may still be added to it. -/
inductive Piece where
  /-- A piece without quantifier, which may get one. -/
  | atom (e : Expr)
  /-- A piece with a quantifier, which a question mark would make lazy. -/
  | quantified (e : Expr) (q : Quantifier)
  /-- A piece with a lazy quantifier. -/
  | sealed (e : Expr)

def Piece.expr : Piece → Expr
  | atom e => e
  | quantified e q => q.apply e .greedy
  | sealed e => e

/-- The pieces of a branch that have been read, the latest first. -/
inductive Branch where
  | empty
  | pieces (earlier : List Expr) (last : Piece)

namespace Branch

def exprs : Branch → List Expr
  | empty => []
  | pieces earlier last => last.expr :: earlier

def push (branch : Branch) (e : Expr) : Branch :=
  pieces branch.exprs (.atom e)

/-- The expression of the whole branch, which is its piece when there is only one. -/
def close? (branch : Branch) : Option Expr :=
  match branch.exprs with
  | [] => none
  | [e] => some e
  | es => some (.concat es.reverse)

end Branch

/-- A pattern or the content of a group that is being read: the branches that are complete, the
latest first, the branch being read, and the offset where that one starts. -/
structure Level where
  complete : List Expr
  start : Nat
  branch : Branch

namespace Level

def opened (start : Nat) : Level :=
  { complete := [], start := start, branch := .empty }

def push (level : Level) (e : Expr) : Level :=
  { level with branch := level.branch.push e }

def nextBranch (level : Level) (start : Nat) : Except PatternError Level :=
  match level.branch.close? with
  | none => .error (.emptyExpression level.start)
  | some e => .ok { complete := e :: level.complete, start := start, branch := .empty }

/-- The expression of the content, which is its branch when there is only one. -/
def close (level : Level) : Except PatternError Expr :=
  match level.branch.close? with
  | none => .error (.emptyExpression level.start)
  | some e =>
    match level.complete with
    | [] => .ok e
    | es => .ok (.alternate (e :: es).reverse)

end Level

/-- A group that has been opened: the offset of its parenthesis, its index if it captures, and the
content around it, as far as it has been read. -/
structure OpenGroup where
  pos : Nat
  index : Option Nat
  around : Level

inductive ReaderMode where
  /-- Pieces, quantifiers, bars and parentheses. -/
  | pieces
  /-- The group whose parenthesis stood at `pos`; a question mark may follow. -/
  | opened (pos : Nat)
  /-- The group whose parenthesis and question mark stood at `pos`. -/
  | marked (pos : Nat)
  /-- The escape sequence whose backslash stood at `pos`. -/
  | escape (pos : Nat)
  /-- Bounds of a repetition in braces. -/
  | bounds (reader : BoundsReader)
  /-- A bracket expression. -/
  | bracket (reader : BracketReader)

structure PatternReader where
  /-- The offset of the next byte. -/
  pos : Nat
  mode : ReaderMode
  /-- The content that the next byte belongs to. -/
  level : Level
  /-- The groups that are open, the innermost first. -/
  groups : List OpenGroup
  /-- How many capturing groups have been opened. -/
  captures : Nat

namespace PatternReader

def initial : PatternReader :=
  { pos := 0, mode := .pieces, level := .opened 0, groups := [], captures := 0 }

def push (reader : PatternReader) (e : Expr) : PatternReader :=
  { reader with mode := .pieces, level := reader.level.push e }

/-- Starts the content, at the offset `start`, of a group whose parenthesis stood at `pos`. -/
def enter (reader : PatternReader) (pos start : Nat) (index : Option Nat) : PatternReader :=
  { reader with
    mode := .pieces
    level := .opened start
    groups := ⟨pos, index, reader.level⟩ :: reader.groups }

/-- Starts the content of a capturing group here. Groups are numbered where they open, so a group
comes before the groups inside it. -/
def enterCapturing (reader : PatternReader) (pos : Nat) : PatternReader :=
  { reader.enter pos reader.pos (some (reader.captures + 1)) with captures := reader.captures + 1 }

def leave (reader : PatternReader) : Except PatternError PatternReader := do
  let e ← reader.level.close
  match reader.groups with
  | [] => .error (.unexpectedParenthesis reader.pos)
  | g :: groups => .ok { reader with level := g.around.push (.group e g.index), groups := groups }

def quantify (reader : PatternReader) (q : Quantifier) : Except PatternError PatternReader :=
  match reader.level.branch with
  | .pieces earlier (.atom e) =>
    let level := { reader.level with branch := .pieces earlier (.quantified e q) }
    .ok { reader with mode := .pieces, level := level }
  | _ => .error (.danglingQuantifier reader.pos)

def question (reader : PatternReader) : Except PatternError PatternReader :=
  match reader.level.branch with
  | .pieces earlier (.quantified e q) =>
    let last := .sealed (q.apply e .lazy)
    .ok { reader with level := { reader.level with branch := .pieces earlier last } }
  | _ => reader.quantify .optional

def brace (reader : PatternReader) : Except PatternError PatternReader :=
  match reader.level.branch with
  | .pieces _ (.atom _) => .ok { reader with mode := .bounds (.opened reader.pos) }
  | _ => .error (.danglingQuantifier reader.pos)

/-- Reads a byte that is not part of a longer construct. -/
def feedPiece (limits : PatternLimits) (reader : PatternReader) (b : UInt8) :
    Except PatternError PatternReader :=
  match Mark.ofByte? b with
  | none => .ok (reader.push (.byte b))
  | some .dot => .ok (reader.push .any)
  | some .caret => .ok (reader.push .textStart)
  | some .dollar => .ok (reader.push .textEnd)
  | some .backslash => .ok { reader with mode := .escape reader.pos }
  | some .bracket => .ok { reader with mode := .bracket (.start reader.pos) }
  | some .opening =>
    if limits.maxNesting ≤ reader.groups.length then
      .error (.nestingTooDeep reader.pos limits.maxNesting)
    else .ok { reader with mode := .opened reader.pos }
  | some .closing => reader.leave
  | some .bar => do
    let level ← reader.level.nextBranch (reader.pos + 1)
    return { reader with level := level }
  | some .asterisk => reader.quantify .star
  | some .plus => reader.quantify .plus
  | some .question => reader.question
  | some .brace => reader.brace

/-- Reads a byte, without moving on. -/
def feedByte (limits : PatternLimits) (reader : PatternReader) (b : UInt8) :
    Except PatternError PatternReader :=
  match reader.mode with
  | .pieces => reader.feedPiece limits b
  | .opened pos =>
    if b = '?'.toUInt8 then .ok { reader with mode := .marked pos }
    else (reader.enterCapturing pos).feedPiece limits b
  | .marked pos =>
    if b = ':'.toUInt8 then .ok (reader.enter pos (reader.pos + 1) none)
    else .error (.unsupportedGroup pos)
  | .escape pos =>
    match Escaped.ofByte? b with
    | none => .error (.invalidEscape pos b)
    | some (.byte c) => .ok (reader.push (.byte c))
    | some (.set s) => .ok (reader.push (.oneOf s))
  | .bounds bounds => do
    match ← bounds.feed limits.maxRepetitions reader.pos b with
    | .more bounds => return { reader with mode := .bounds bounds }
    | .done min max => reader.quantify (.repeated min max)
  | .bracket bracket => do
    match ← bracket.feed reader.pos b with
    | .more bracket => return { reader with mode := .bracket bracket }
    | .done s => return reader.push (.oneOf s)

/-- Reads the byte `b` at `reader.pos` and moves on to the next offset. -/
def feed (limits : PatternLimits) (reader : PatternReader) (b : UInt8) :
    Except PatternError PatternReader := do
  let next ← reader.feedByte limits b
  return { next with pos := reader.pos + 1 }

def finish (reader : PatternReader) : Except PatternError Pattern :=
  match reader.mode with
  | .opened _ => .error (.emptyExpression reader.pos)
  | .marked pos => .error (.unsupportedGroup pos)
  | .escape pos => .error (.trailingEscape pos)
  | .bounds bounds => .error (.invalidRepetition bounds.pos)
  | .bracket bracket => .error bracket.unfinished
  | .pieces => do
    let root ← reader.level.close
    match reader.groups with
    | [] => .ok { root := root, captures := reader.captures }
    | g :: _ => .error (.unclosedParenthesis g.pos)

end PatternReader

namespace Pattern

def ofBytes (limits : PatternLimits) (bytes : List UInt8) : Except PatternError Pattern := do
  let reader ← bytes.foldlM (PatternReader.feed limits) PatternReader.initial
  reader.finish

def ofText (limits : PatternLimits) (text : String) : Except PatternError Pattern :=
  ofBytes limits text.toUTF8.data.toList

end Pattern

end ByteRegex
