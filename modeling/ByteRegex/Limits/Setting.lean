import ByteRegex.Number.Shortest
import ByteRegex.Text.Quoted
import ByteRegex.Toml.Value

/-!
# What documents set

Of a value only so much matters as tells a number from everything else, so the content of arrays and
tables is left out. A table may wrap a value: it then holds the value under a key reserved for this,
and stands for the value whatever else it holds. Another reserved key is for identifiers, which
cannot be written in a document. The reserved keys mean nothing at the top of a document.
-/

namespace ByteRegex

inductive Setting where
  | text (s : String)
  | integer (n : Int)
  | float (x : Binary64)
  | boolean (b : Bool)
  | sequence
  | map

namespace Setting

/-- The key under which a table holds the value that it wraps. -/
def wrappedKey : String := "___figment_value_value"

/-- The key for the identifier of a wrapped value. -/
def identifierKey : String := "___figment_value_id"

def describe : Setting → String
  | text s => "string " ++ Text.quoted s
  | integer n => "signed int `" ++ toString n ++ "`"
  | float x => "float `" ++ x.text ++ "`"
  | boolean b => "bool " ++ toString b
  | sequence => "sequence"
  | map => "map"

mutual

/-- What a value stands for; `none` if there is an identifier in it. -/
def ofToml? : Toml → Option Setting
  | .text s => some (text s)
  | .integer n => some (integer n)
  | .float x => some (float x)
  | .boolean b => some (boolean b)
  | .moment _ => some map
  | .array items => if areSettings items then some sequence else none
  | .table _ entries => ofTable? map entries
  | .tables latest earlier =>
    if (ofTable? map latest).isSome && areTables earlier then some sequence else none

/-- What a table stands for, if it stands for `outer` but for the given entries. -/
def ofTable? (outer : Setting) : TomlEntries → Option Setting
  | [] => some outer
  | (key, value) :: entries =>
    if key = identifierKey then none
    else
      match ofToml? value with
      | none => none
      | some inner => ofTable? (if key = wrappedKey then inner else outer) entries

/-- Whether there is no identifier in the values. -/
def areSettings : List Toml → Bool
  | [] => true
  | item :: items => (ofToml? item).isSome && areSettings items

def areTables : List TomlEntries → Bool
  | [] => true
  | table :: tables => (ofTable? map table).isSome && areTables tables

end

end Setting

abbrev Settings := List (String × Setting)

namespace Settings

/-- The settings of a document; `none` if there is an identifier in one of its values. -/
def ofEntries? (entries : TomlEntries) : Option Settings :=
  entries.mapM fun (key, value) => do return (key, ← Setting.ofToml? value)

end Settings

end ByteRegex
