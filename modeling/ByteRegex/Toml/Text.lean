/-!
# Strings of TOML documents

Strings stand in double quotes, where a backslash starts an escape sequence, or in single quotes,
where it stands for itself. Three quotes instead of one allow line breaks. A string is read one
character at a time, starting after its opening quotes.
-/

namespace ByteRegex.Toml

def isBlank (c : Char) : Bool :=
  c = ' ' || c = '\t'

def isLineChar (c : Char) : Bool :=
  c = '\t' || (' ' ≤ c && c ≠ '\x7f')

def hexDigit? (c : Char) : Option Nat :=
  if '0' ≤ c ∧ c ≤ '9' then some (c.toNat - '0'.toNat)
  else if 'a' ≤ c ∧ c ≤ 'f' then some (c.toNat - 'a'.toNat + 10)
  else if 'A' ≤ c ∧ c ≤ 'F' then some (c.toNat - 'A'.toNat + 10)
  else none

def escaped? : Char → Option Char
  | 'b' => some '\x08'
  | 't' => some '\t'
  | 'n' => some '\n'
  | 'f' => some '\x0c'
  | 'r' => some '\r'
  | '"' => some '"'
  | '\\' => some '\\'
  | _ => none

inductive TextMode where
  /-- Between characters. -/
  | plain
  /-- After a backslash. -/
  | escape
  /-- Within the code of a character, with `left` digits to come. -/
  | code (left value : Nat)
  /-- After a carriage return, which must be followed by a newline. -/
  | carriageReturn
  /-- After one or two quotes that may be part of the text. -/
  | quotes (n : Nat)
  /-- After three quotes and `n` more. -/
  | closing (n : Nat)
  /-- After a backslash and blanks, where the line must end. -/
  | lineEnd
  /-- In the blanks and line breaks after a backslash at the end of a line. -/
  | skipped
  /-- After a carriage return among those. -/
  | skippedReturn
deriving DecidableEq

def pushMany (text : String) (c : Char) (n : Nat) : String :=
  text ++ String.ofList (List.replicate n c)

def feedEscape (text : String) (c : Char) : Option (String × TextMode) :=
  match escaped? c with
  | some d => some (text.push d, .plain)
  | none =>
    if c = 'u' then some (text, .code 4 0)
    else if c = 'U' then some (text, .code 8 0)
    else none

/-- Reads a digit of the code of a character. The last digit completes the code, which must be that
of a character. -/
def feedCode (text : String) (left value : Nat) (c : Char) : Option (String × TextMode) := do
  let digit ← hexDigit? c
  let value := 16 * value + digit
  if 1 < left then return (text, .code (left - 1) value)
  else if value.isValidChar then return (text.push (Char.ofNat value), .plain)
  else none

def shortText (quote : Char) (text : String) (mode : TextMode) :
    List Char → Option (String × List Char)
  | [] => none
  | c :: rest =>
    match mode with
    | .escape =>
      match feedEscape text c with
      | some (text, mode) => shortText quote text mode rest
      | none => none
    | .code left value =>
      match feedCode text left value c with
      | some (text, mode) => shortText quote text mode rest
      | none => none
    | _ =>
      if c = quote then some (text, rest)
      else if c = '\\' ∧ quote = '"' then shortText quote text .escape rest
      else if isLineChar c then shortText quote (text.push c) .plain rest
      else none

/-- Reads a character of a string of several lines that is not part of a longer construct. -/
def feedPlain (quote : Char) (text : String) (c : Char) : Option (String × TextMode) :=
  if c = quote then some (text, .quotes 1)
  else if c = '\\' ∧ quote = '"' then some (text, .escape)
  else if c = '\r' then some (text, .carriageReturn)
  else if c = '\n' ∨ isLineChar c then some (text.push c, .plain)
  else none

def feedLong (quote : Char) (text : String) (mode : TextMode) (c : Char) :
    Option (String × TextMode) :=
  match mode with
  | .plain => feedPlain quote text c
  | .escape =>
    if isBlank c then some (text, .lineEnd)
    else if c = '\n' then some (text, .skipped)
    else if c = '\r' then some (text, .skippedReturn)
    else feedEscape text c
  | .code left value => feedCode text left value c
  | .carriageReturn => if c = '\n' then some (text.push c, .plain) else none
  | .quotes n =>
    if c = quote then some (text, if n < 2 then .quotes (n + 1) else .closing 0)
    else feedPlain quote (pushMany text quote n) c
  | .closing _ => none
  | .lineEnd =>
    if isBlank c then some (text, .lineEnd)
    else if c = '\n' then some (text, .skipped)
    else if c = '\r' then some (text, .skippedReturn)
    else none
  | .skipped =>
    if isBlank c ∨ c = '\n' then some (text, .skipped)
    else if c = '\r' then some (text, .skippedReturn)
    else feedPlain quote text c
  | .skippedReturn => if c = '\n' then some (text, .skipped) else none

/-- Reads the rest of a string of several lines. Up to two quotes right before the closing ones
belong to the text. -/
def longText (quote : Char) (text : String) (mode : TextMode) :
    List Char → Option (String × List Char)
  | [] =>
    match mode with
    | .closing n => some (pushMany text quote n, [])
    | _ => none
  | c :: rest =>
    match mode with
    | .closing n =>
      if c = quote ∧ n < 2 then longText quote text (.closing (n + 1)) rest
      else some (pushMany text quote n, c :: rest)
    | mode =>
      match feedLong quote text mode c with
      | some (text, mode) => longText quote text mode rest
      | none => none

/-- Leaves out a line break right after the opening quotes. -/
def afterOpening : List Char → List Char
  | '\n' :: rest => rest
  | '\r' :: '\n' :: rest => rest
  | rest => rest

def text? : List Char → Option (String × List Char)
  | '"' :: '"' :: '"' :: rest => longText '"' "" .plain (afterOpening rest)
  | '\'' :: '\'' :: '\'' :: rest => longText '\'' "" .plain (afterOpening rest)
  | '"' :: rest => shortText '"' "" .plain rest
  | '\'' :: rest => shortText '\'' "" .plain rest
  | _ => none

end ByteRegex.Toml
