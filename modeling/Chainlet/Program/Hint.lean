import Chainlet.Program.Basic

/-!
# Program/Hint — what a type ascription says about storage

Values are stored in words of four bytes. The ascription `f32` asks for a float store; any other
name, known or not, is stored as an integer, and so is a name without an ascription.
-/

namespace Chainlet

/-- The number types of the machine. -/
inductive NumberType where
  | i32
  | f32
deriving DecidableEq, Repr

namespace NumberType

/-- The name of a number type in module text. -/
def label : NumberType → String
  | i32 => "i32"
  | f32 => "f32"

/-- The type in which a value of a named type is stored. -/
def ofTypeName (name : String) : NumberType := if name = "f32" then f32 else i32

end NumberType

/-- The number of bytes of a word, and so of every stored value. -/
def wordSize : UInt32 := 4

namespace TypedName

/-- The type that a name is annotated with, `i32` by default. -/
def typeHint (n : TypedName) : String :=
  match n.ascription with
  | none => NumberType.i32.label
  | some a => a.typeName

/-- The type in which the value of a name is stored. -/
def storage (n : TypedName) : NumberType := .ofTypeName n.typeHint

end TypedName

end Chainlet
