import ByteRegex.Toml.Scalar

/-!
# Reading TOML documents

A document is a list of lines: blank ones, comments, headers of tables, and keys with their values.
Arrays may go over several lines. What is not a document is refused as a whole.
-/

namespace ByteRegex.Toml

/-! ## Blanks, comments and line ends -/

def skipBlanks (cs : List Char) : List Char :=
  cs.dropWhile isBlank

/-- What follows blanks, line ends, and comments that go up to a line end. The flag tells whether
the characters are part of a comment. -/
def skipLines? (inComment : Bool) : List Char → Option (List Char)
  | [] => if inComment then none else some []
  | '\n' :: rest => skipLines? false rest
  | '\r' :: '\n' :: rest => skipLines? false rest
  | c :: rest =>
    if inComment then if isLineChar c then skipLines? true rest else none
    else if isBlank c then skipLines? false rest
    else if c = '#' then skipLines? true rest
    else some (c :: rest)

/-- What follows the end of a line. The end of the document ends a line too. -/
def lineEnd? : List Char → Option (List Char)
  | [] => some []
  | '\n' :: rest => some rest
  | '\r' :: '\n' :: rest => some rest
  | _ => none

/-- What follows the rest of a line that may hold only a comment. -/
def restOfLine? (cs : List Char) : Option (List Char) :=
  match skipBlanks cs with
  | '#' :: rest => lineEnd? (rest.dropWhile isLineChar)
  | rest => lineEnd? rest

/-! ## Keys -/

def isBareChar (c : Char) : Bool :=
  c.isAlphanum || c = '-' || c = '_'

def simpleKey? (cs : List Char) : Option (String × List Char) :=
  match cs with
  | '"' :: rest => shortText '"' "" .plain rest
  | '\'' :: rest => shortText '\'' "" .plain rest
  | _ =>
    let key := cs.takeWhile isBareChar
    if key.isEmpty then none else some (String.ofList key, cs.dropWhile isBareChar)

/-- Reads a key with at most `room` parts more, after the parts in `outer`, the latest first. -/
def keyAfter? (outer : List String) : (room : Nat) → List Char → Option (TomlKey × List Char)
  | 0, _ => none
  | room + 1, cs => do
    let (name, rest) ← simpleKey? (skipBlanks cs)
    match skipBlanks rest with
    | '.' :: rest => keyAfter? (name :: outer) room rest
    | rest => return ({ outer := outer.reverse, name := name }, rest)

/-- One more than the number of parts a key may have, and than the depth of arrays and inline
tables. -/
def depthLimit : Nat := 80

def key? (cs : List Char) : Option (TomlKey × List Char) :=
  keyAfter? [] (depthLimit - 1) cs

/-! ## Values -/

mutual

/-- Reads a value, with at most `depth` arrays and inline tables inside one another. Every call
reads something or is followed by one that does, so twice the number of characters is fuel
enough. -/
def value? (depth : Nat) : (fuel : Nat) → List Char → Option (Toml × List Char)
  | 0, _ => none
  | fuel + 1, cs =>
    match cs, depth with
    | '[' :: _, 0 | '\x7b' :: _, 0 => none
    | '[' :: rest, depth + 1 => items? depth [] fuel rest
    | '\x7b' :: rest, depth + 1 =>
      match skipBlanks rest with
      | '\x7d' :: rest => some (.table .inline [], rest)
      | rest => fields? depth [] fuel rest
    | '"' :: _, _ | '\'' :: _, _ => (text? cs).map fun (s, rest) => (.text s, rest)
    | _, _ => scalar? cs

def items? (depth : Nat) (items : List Toml) : (fuel : Nat) → List Char → Option (Toml × List Char)
  | 0, _ => none
  | fuel + 1, cs => do
    match ← skipLines? false cs with
    | ']' :: rest => return (.array items.reverse, rest)
    | cs =>
      let (item, rest) ← value? depth fuel cs
      match ← skipLines? false rest with
      | ',' :: rest => items? depth (item :: items) fuel rest
      | ']' :: rest => return (.array (item :: items).reverse, rest)
      | _ => none

def fields? (depth : Nat) (entries : TomlEntries) : (fuel : Nat) → List Char →
    Option (Toml × List Char)
  | 0, _ => none
  | fuel + 1, cs => do
    let (key, rest) ← key? cs
    match rest with
    | '=' :: rest =>
      let (value, rest) ← value? depth fuel (skipBlanks rest)
      let entries ← entries.addDotted? key.name value key.outer
      match skipBlanks rest with
      | ',' :: rest => fields? depth entries fuel rest
      | '\x7d' :: rest => return (.table .inline entries, rest)
      | _ => none
    | _ => none

end

/-! ## Documents -/

/-- A document that is being read: its content so far, and the table that the next key belongs
to. -/
structure DocumentReader where
  root : TomlEntries
  table : List String

namespace DocumentReader

def initial : DocumentReader :=
  { root := [], table := [] }

def openTable? (reader : DocumentReader) (key : TomlKey) : Option DocumentReader := do
  let root ← reader.root.change? (·.openTable? key.name) key.outer
  return { root := root, table := key.outer ++ [key.name] }

def openElement? (reader : DocumentReader) (key : TomlKey) : Option DocumentReader := do
  let root ← reader.root.change? (·.openElement? key.name) key.outer
  return { root := root, table := key.outer ++ [key.name] }

def add? (reader : DocumentReader) (key : TomlKey) (value : Toml) : Option DocumentReader := do
  let root ← reader.root.change? (·.addDotted? key.name value key.outer) reader.table
  return { reader with root := root }

/-- Reads a line that is neither blank nor a comment, with the given fuel for its value. -/
def line? (reader : DocumentReader) (fuel : Nat) (cs : List Char) :
    Option (DocumentReader × List Char) := do
  match cs with
  | '[' :: '[' :: rest =>
    match ← key? rest with
    | (key, ']' :: ']' :: rest) => return (← reader.openElement? key, ← restOfLine? rest)
    | _ => none
  | '[' :: rest =>
    match ← key? rest with
    | (key, ']' :: rest) => return (← reader.openTable? key, ← restOfLine? rest)
    | _ => none
  | cs =>
    match ← key? cs with
    | (key, '=' :: rest) =>
      let (value, rest) ← value? (depthLimit - 1) fuel (skipBlanks rest)
      return (← reader.add? key value, ← restOfLine? rest)
    | _ => none

/-- Reads the lines of a document, with the given fuel for each value. Every line but the last has
at least one character, so the number of characters is fuel enough for the lines. -/
def lines? (valueFuel : Nat) (reader : DocumentReader) :
    (fuel : Nat) → List Char → Option TomlEntries
  | 0, cs => if (skipBlanks cs).isEmpty then some reader.root else none
  | fuel + 1, cs =>
    match skipBlanks cs with
    | [] => some reader.root
    | '\n' :: rest | '\r' :: '\n' :: rest => lines? valueFuel reader fuel rest
    | '#' :: rest => do lines? valueFuel reader fuel (← restOfLine? ('#' :: rest))
    | cs => do
      let (reader, rest) ← reader.line? valueFuel cs
      lines? valueFuel reader fuel rest

end DocumentReader

def withoutByteOrderMark : List Char → List Char
  | '\ufeff' :: rest => rest
  | cs => cs

def document? (text : String) : Option TomlEntries :=
  let cs := withoutByteOrderMark text.toList
  DocumentReader.initial.lines? (2 * cs.length + 2) cs.length cs

end ByteRegex.Toml
