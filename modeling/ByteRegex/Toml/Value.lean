import ByteRegex.Number.Binary64

/-!
# TOML documents

The values of a document, and the rules by which its tables are filled: a table may be named on the
way to another one before it is given a header of its own, a dotted key may open tables of its own
but not reach into tables that are complete, and nothing is defined twice.
-/

namespace ByteRegex

/-- How a table came into being. It decides what may still be added to the table. -/
inductive TableOrigin where
  /-- In braces. Such a table is complete. -/
  | inline
  /-- By a header of its own. -/
  | header
  /-- On the way to the table of a header. -/
  | outer
  /-- On the way to the value of a dotted key. -/
  | dotted
deriving DecidableEq

inductive Toml where
  | text (s : String)
  | integer (n : Int)
  | float (x : Binary64)
  | boolean (b : Bool)
  /-- A date, a time, or both, as it is written. -/
  | moment (s : String)
  | array (items : List Toml)
  | table (origin : TableOrigin) (entries : List (String × Toml))
  /-- The tables of a repeated header, the latest on its own. -/
  | tables (latest : List (String × Toml)) (earlier : List (List (String × Toml)))

/-- The way to a value: the keys of the tables around it, and its own key. -/
structure TomlKey where
  outer : List String
  name : String

abbrev TomlEntries := List (String × Toml)

namespace TomlEntries

def replace (entries : TomlEntries) (key : String) (value : Toml) : TomlEntries :=
  entries.map fun entry => if entry.1 = key then (key, value) else entry

def add? (entries : TomlEntries) (key : String) (value : Toml) : Option TomlEntries :=
  match entries.lookup key with
  | none => some ((key, value) :: entries)
  | some _ => none

/-- Adds a value behind the dotted way `outer`, opening tables on the way. Tables that have a header
or stand in braces cannot be reached like this, and the value itself goes only into a table that
dotted keys have opened. -/
def addDotted? (name : String) (value : Toml) :
    (outer : List String) → TomlEntries → Option TomlEntries
  | [], entries => entries.add? name value
  | key :: outer, entries =>
    match entries.lookup key with
    | none => do
      let inner ← addDotted? name value outer []
      return (key, .table .dotted inner) :: entries
    | some (.table .dotted inner) => do
      let inner ← addDotted? name value outer inner
      return entries.replace key (.table .dotted inner)
    | some (.table .outer inner) =>
      if outer.isEmpty then none
      else do
        let inner ← addDotted? name value outer inner
        return entries.replace key (.table .outer inner)
    | some (.tables latest earlier) =>
      if outer.isEmpty then none
      else do
        let latest ← addDotted? name value outer latest
        return entries.replace key (.tables latest earlier)
    | some _ => none

/-- Changes the content of the table that headers call `path`, opening tables on the way. Of the
tables of a repeated header the latest is meant. -/
def change? (f : TomlEntries → Option TomlEntries) : (path : List String) → TomlEntries →
    Option TomlEntries
  | [], entries => f entries
  | key :: path, entries =>
    match entries.lookup key with
    | none => do
      let inner ← change? f path []
      return (key, .table .outer inner) :: entries
    | some (.table .inline _) => none
    | some (.table origin inner) => do
      let inner ← change? f path inner
      return entries.replace key (.table origin inner)
    | some (.tables latest earlier) => do
      let latest ← change? f path latest
      return entries.replace key (.tables latest earlier)
    | some _ => none

/-- Opens the table of a header. It may have been named before, on the way to other tables only. -/
def openTable? (name : String) (entries : TomlEntries) : Option TomlEntries :=
  match entries.lookup name with
  | none => some ((name, .table .header []) :: entries)
  | some (.table .outer inner) => some (entries.replace name (.table .header inner))
  | some _ => none

def openElement? (name : String) (entries : TomlEntries) : Option TomlEntries :=
  match entries.lookup name with
  | none => some ((name, .tables [] []) :: entries)
  | some (.tables latest earlier) => some (entries.replace name (.tables [] (latest :: earlier)))
  | some _ => none

end TomlEntries

end ByteRegex
