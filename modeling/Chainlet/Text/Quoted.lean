import Chainlet.Text.Glyph

/-!
# Text/Quoted — a text between quotes, every character visible

`quoted` writes a text so that a reader of a log sees each character: a quote and a backslash are
escaped, the usual controls have their letters, and any other character without a glyph is given by
its code point in hexadecimal. An apostrophe stays as it is.
-/

namespace Chainlet

/-- A code point in lower-case hexadecimal, without leading zeros. -/
def hexadecimal (n : Nat) : String := String.ofList (Nat.toDigits 16 n)

/-- How one character is written between quotes. -/
def quotedChar (c : Char) : String :=
  match c with
  | '\x00' => "\\0"
  | '\t' => "\\t"
  | '\n' => "\\n"
  | '\r' => "\\r"
  | '"' => "\\\""
  | '\\' => "\\\\"
  | c => if hasGlyph c then c.toString else "\\u\x7b" ++ hexadecimal c.toNat ++ "\x7d"

/-- A text between quotes with every character visible. -/
def quoted (text : String) : String :=
  "\"" ++ String.join (text.toList.map quotedChar) ++ "\""

/-- The quoted texts of a list, between brackets. -/
def quotedList (texts : List String) : String :=
  "[" ++ ", ".intercalate (texts.map quoted) ++ "]"

end Chainlet
