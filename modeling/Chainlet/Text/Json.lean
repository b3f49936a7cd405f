import Chainlet.Text.Quoted

/-!
# Text/Json — ordered JSON values and their indented text

A `Json` object keeps its members in the order they were given. `Json.text` writes a value with one
member or element on a line, two spaces a level; an empty list or object takes no lines. The writer
puts each text in front of what follows it, so that a value is read off the text without looking at
what comes after.
-/

namespace Chainlet

/-- A JSON value. A number is given by its text. -/
inductive Json where
  | null
  | bool (b : Bool)
  | number (text : String)
  | string (s : String)
  | array (elements : List Json)
  | object (members : List (String × Json))

namespace Json

/-- A natural number as a JSON value. -/
def nat (n : Nat) : Json := .number (toString n)

/-- The value of an option, `null` when there is none. -/
def ofOption {α : Type} (encode : α → Json) : Option α → Json
  | none => .null
  | some a => encode a

/-- A value under the name of its alternative. -/
def tagged (name : String) (payload : Json) : Json := .object [(name, payload)]

/-! ## Strings -/

/-- A code point below sixteen squared in four hexadecimal digits. -/
def fourDigits (n : Nat) : List Char := '0' :: '0' :: Nat.digitChar (n / 16) :: [Nat.digitChar (n % 16)]

/-- How one character is written in a JSON string: quotes, backslashes and controls are escaped. -/
def escape (c : Char) : List Char :=
  match c with
  | '"' => ['\\', '"']
  | '\\' => ['\\', '\\']
  | '\x08' => ['\\', 'b']
  | '\x0c' => ['\\', 'f']
  | '\n' => ['\\', 'n']
  | '\r' => ['\\', 'r']
  | '\t' => ['\\', 't']
  | c => if c.toNat < 0x20 then '\\' :: 'u' :: fourDigits c.toNat else [c]

/-- A JSON string before the text that follows it. -/
def writeString (s : String) (rest : List Char) : List Char :=
  '"' :: (s.toList.flatMap escape ++ '"' :: rest)

/-! ## Values -/

/-- A line break and the indentation of a level. -/
def newLine (depth : Nat) (rest : List Char) : List Char :=
  '\n' :: (List.replicate (2 * depth) ' ' ++ rest)

mutual

/-- The text of a value at a level of indentation, before the text that follows it. -/
def write (depth : Nat) : Json → List Char → List Char
  | .null, rest => "null".toList ++ rest
  | .bool b, rest => (if b then "true" else "false").toList ++ rest
  | .number text, rest => text.toList ++ rest
  | .string s, rest => writeString s rest
  | .array [], rest => '[' :: ']' :: rest
  | .array (e :: es), rest =>
    '[' :: newLine (depth + 1) (write (depth + 1) e (writeElements (depth + 1) es
      (newLine depth (']' :: rest))))
  | .object [], rest => '{' :: '}' :: rest
  | .object ((name, value) :: ms), rest =>
    '{' :: newLine (depth + 1) (writeString name (':' :: ' ' :: write (depth + 1) value
      (writeMembers (depth + 1) ms (newLine depth ('}' :: rest)))))

/-- The elements after the first, each on a line of its own behind a comma. -/
def writeElements (depth : Nat) : List Json → List Char → List Char
  | [], rest => rest
  | e :: es, rest => ',' :: newLine depth (write depth e (writeElements depth es rest))

/-- The members after the first, each on a line of its own behind a comma. -/
def writeMembers (depth : Nat) : List (String × Json) → List Char → List Char
  | [], rest => rest
  | (name, value) :: ms, rest =>
    ',' :: newLine depth (writeString name (':' :: ' ' :: write depth value
      (writeMembers depth ms rest)))

end

/-- The text of a value, without a line break at its end. -/
def text (value : Json) : String := String.ofList (write 0 value [])

end Json

end Chainlet
