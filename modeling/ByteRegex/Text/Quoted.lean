import ByteRegex.Text.Hex
import ByteRegex.Text.Unicode

/-!
# Quoted text

Text in messages stands between double quotes. What could be mistaken for something else, or not be
seen at all, is written as an escape sequence.
-/

namespace ByteRegex.Text

def quotedChar (c : Char) : String :=
  match c with
  | '\x00' => "\\0"
  | '\t' => "\\t"
  | '\r' => "\\r"
  | '\n' => "\\n"
  | '\\' => "\\\\"
  | '"' => "\\\""
  | c => if isPlain c then String.singleton c else "\\u\x7b" ++ hex 1 c.toNat ++ "\x7d"

def quoted (s : String) : String :=
  s.foldl (fun text c => text ++ quotedChar c) "\"" ++ "\""

end ByteRegex.Text
