import ByteRegex.Search.Match
import ByteRegex.Template.Error
import ByteRegex.Text.Digit

/-!
# Templates

A template is what a match is replaced by. A dollar sign and a number stand for what the group of
that number matches, two dollar signs for one, and everything else for itself. All the digits that
follow a dollar sign belong to the number.

Templates are read one byte at a time, like patterns.
-/

namespace ByteRegex

inductive TemplatePiece where
  /-- A byte that stands for itself. -/
  | byte (b : UInt8)
  /-- The bytes that a group matches. -/
  | group (index : Nat)
deriving DecidableEq

structure Template where
  pieces : Array TemplatePiece
deriving DecidableEq

/-- What the next byte of a template may belong to. -/
inductive TemplateMode where
  /-- Nothing before it. -/
  | plain
  /-- The dollar sign right before it. -/
  | dollar
  /-- The number right before it, whose value so far is `value`. -/
  | number (value : Nat)
deriving DecidableEq

structure TemplateReader where
  pieces : Array TemplatePiece
  mode : TemplateMode

namespace TemplateReader

def initial : TemplateReader :=
  { pieces := #[], mode := .plain }

def feedPlain (pieces : Array TemplatePiece) (b : UInt8) : TemplateReader :=
  if b = '$'.toUInt8 then { pieces := pieces, mode := .dollar }
  else { pieces := pieces.push (.byte b), mode := .plain }

def feed (reader : TemplateReader) (b : UInt8) : TemplateReader :=
  match reader with
  | ⟨pieces, .plain⟩ => feedPlain pieces b
  | ⟨pieces, .dollar⟩ =>
    if b = '$'.toUInt8 then { pieces := pieces.push (.byte b), mode := .plain }
    else if Text.isDigit b then { pieces := pieces, mode := .number (Text.digitValue b) }
    else feedPlain (pieces.push (.byte '$'.toUInt8)) b
  | ⟨pieces, .number value⟩ =>
    if Text.isDigit b then
      { pieces := pieces, mode := .number (10 * value + Text.digitValue b) }
    else feedPlain (pieces.push (.group value)) b

def finish (reader : TemplateReader) : Template :=
  match reader with
  | ⟨pieces, .plain⟩ => ⟨pieces⟩
  | ⟨pieces, .dollar⟩ => ⟨pieces.push (.byte '$'.toUInt8)⟩
  | ⟨pieces, .number value⟩ => ⟨pieces.push (.group value)⟩

end TemplateReader

namespace Template

/-- Reads the bytes of a template. Every sequence of bytes is one. -/
def ofBytes (bytes : List UInt8) : Template :=
  (bytes.foldl TemplateReader.feed TemplateReader.initial).finish

def missingGroup? (captures : Nat) : TemplatePiece → Option Nat
  | .byte _ => none
  | .group index => if captures < index then some index else none

/-- Checks that there is a group for every reference; the first reference without one is at
fault. -/
def check (t : Template) (captures : Nat) : Except TemplateError Unit :=
  match t.pieces.toList.findSome? (missingGroup? captures) with
  | none => .ok ()
  | some group => .error (.ofGroup group captures)

/-- Adds what a piece stands for to `out`. A group that the match did not pass through stands for
nothing. -/
def expandPiece (subject : ByteArray) (m : Match) (out : ByteArray) : TemplatePiece → ByteArray
  | .byte b => out.push b
  | .group index =>
    match m.group? index with
    | some span => out ++ subject.extract span.start span.stop
    | none => out

def expand (t : Template) (subject : ByteArray) (m : Match) (out : ByteArray) : ByteArray :=
  t.pieces.foldl (expandPiece subject m) out

end Template

end ByteRegex
