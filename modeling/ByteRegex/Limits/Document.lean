import ByteRegex.Limits.Basic
import ByteRegex.Limits.Setting
import ByteRegex.Toml.Document

/-!
# Limits from documents

Limits can be kept in a TOML document. What the document does not mention has its default, and what
it mentions besides is left alone.
-/

namespace ByteRegex

inductive LimitWidth where
  | bits32
  | bits64
  | size
deriving DecidableEq

namespace LimitWidth

def max : LimitWidth → Nat
  | bits32 => (1 <<< 32) - 1
  | bits64 | size => (1 <<< 64) - 1

def text : LimitWidth → String
  | bits32 => "u32"
  | bits64 => "u64"
  | size => "usize"

end LimitWidth

inductive LimitsError where
  /-- There is no document, or it is not a TOML document, or a value has an identifier. -/
  | unreadable
  /-- The value of `key` is not a whole number; `found` tells what it is. -/
  | invalidType (key found : String) (width : LimitWidth)
  /-- The value of `key` is a whole number that the limit cannot be. -/
  | invalidValue (key : String) (value : Int) (width : LimitWidth)
deriving DecidableEq

namespace LimitsError

/-- The key at fault; empty if the document as a whole is. -/
def key : LimitsError → String
  | unreadable => ""
  | invalidType key _ _ | invalidValue key _ _ => key

def message? : LimitsError → Option String
  | unreadable => none
  | invalidType _ found width =>
    some ("invalid type: found " ++ found ++ ", expected " ++ width.text)
  | invalidValue _ value width =>
    some ("invalid value signed int `" ++ toString value ++ "`, expected " ++ width.text)

end LimitsError

namespace Limits

def number? (settings : Settings) (key : String) (width : LimitWidth) :
    Except LimitsError (Option Nat) :=
  match settings.lookup key with
  | none => .ok none
  | some (.integer n) =>
    if 0 ≤ n ∧ n.toNat ≤ width.max then .ok (some n.toNat) else .error (.invalidValue key n width)
  | some setting => .error (.invalidType key setting.describe width)

/-- The limits that a document sets. The keys are looked at in alphabetical order, so the first one
of those that are set to something else is at fault. -/
def ofSettings (settings : Settings) : Except LimitsError Limits := do
  let default : Limits := {}
  let maxNesting ← number? settings "max_nesting" .bits32
  let maxProgramSize ← number? settings "max_program_size" .size
  let maxRepetitions ← number? settings "max_repetitions" .bits32
  let maxVisitedBits ← number? settings "max_visited_bits" .size
  let stepLimit ← number? settings "step_limit" .bits64
  return {
    stepLimit := stepLimit
    maxRepetitions := maxRepetitions.getD default.maxRepetitions
    maxNesting := maxNesting.getD default.maxNesting
    maxProgramSize := maxProgramSize.getD default.maxProgramSize
    maxVisitedBits := maxVisitedBits.getD default.maxVisitedBits }

def ofText (text : String) : Except LimitsError Limits :=
  match (Toml.document? text).bind Settings.ofEntries? with
  | none => .error .unreadable
  | some settings => ofSettings settings

def ofFile (content : Option ByteArray) : Except LimitsError Limits :=
  match content.bind String.fromUTF8? with
  | none => .error .unreadable
  | some text => ofText text

end Limits

end ByteRegex
