import Chainlet.Binary32.Numeral
import Chainlet.Program.Hint

/-!
# Module/Instr — instructions and their text

An `Instr` is an instruction of the stack machine with names for its operands. It is written on one
line, a block on a line for each instruction in it and two for its parentheses (`Instr.lines`); each
level inside a block is indented by two spaces. `pushesFloat` and `writesLocal` look into blocks.
-/

namespace Chainlet

/-- The operations of arithmetic that every number type has. -/
inductive Arithmetic where
  | add
  | sub
  | mul
  | div
deriving DecidableEq, Repr

/-- An instruction. -/
inductive Instr where
  | i32Const (value : UInt32)
  | f32Const (value : Binary32)
  | arithmetic (type : NumberType) (operation : Arithmetic)
  | globalGet (name : String)
  | globalSet (name : String)
  | localGet (name : String)
  | localTee (name : String)
  | call (name : String)
  | store (type : NumberType) (offset : UInt32)
  | block (body : List Instr)

/-- Numbers in modules: always written out in full, a whole number without a point, a tie upwards. -/
def moduleNumeral : Numeral where
  fullRange := none
  keepsPoint := false
  tie := .up
  infinity := "inf"
  negativeInfinity := "-inf"
  nan := "NaN"

/-- The name of an operation; the division of integers is the signed one. -/
def Arithmetic.label (type : NumberType) : Arithmetic → String
  | add => "add"
  | sub => "sub"
  | mul => "mul"
  | div => match type with
    | .i32 => "div_s"
    | .f32 => "div"

/-- The indentation of a level. -/
def indent (depth : Nat) : String := String.ofList (List.replicate (2 * depth) ' ')

namespace Instr

/-- The text of an instruction that takes one line, and the first line of a block. -/
def head : Instr → String
  | i32Const value => "i32.const " ++ toString value.toNat
  | f32Const value => "f32.const " ++ value.text moduleNumeral
  | arithmetic type operation => type.label ++ "." ++ operation.label type
  | globalGet name => "global.get $" ++ name
  | globalSet name => "global.set $" ++ name
  | localGet name => "local.get $" ++ name
  | localTee name => "local.tee $" ++ name
  | call name => "call $" ++ name
  | store type offset => type.label ++ ".store offset=" ++ toString offset.toNat
  | block _ => "(block"

mutual

/-- The lines of an instruction at a level of indentation. -/
def lines (depth : Nat) : Instr → List String
  | block body =>
    (indent depth ++ "(block") :: (linesAll (depth + 1) body ++ [indent depth ++ ")"])
  | i => [indent depth ++ i.head]

/-- The lines of several instructions. -/
def linesAll (depth : Nat) : List Instr → List String
  | [] => []
  | i :: is => lines depth i ++ linesAll depth is

end

/-- The text of an instruction on its own. -/
def text (i : Instr) : String := "\n".intercalate (i.lines 0)

def isFloatConst : Instr → Bool
  | f32Const _ => true
  | _ => false

mutual

/-- Whether an instruction is a float constant or a block with one in it. -/
def hasFloat : Instr → Bool
  | f32Const _ => true
  | block body => pushesFloat body
  | _ => false

/-- Whether code has a float constant anywhere, in blocks too. -/
def pushesFloat : List Instr → Bool
  | [] => false
  | i :: is => i.hasFloat || pushesFloat is

end

theorem pushesFloat_append (a b : List Instr) :
    pushesFloat (a ++ b) = (pushesFloat a || pushesFloat b) := by
  induction a with
  | nil => simp [pushesFloat]
  | cons i is ih => simp [pushesFloat, ih, Bool.or_assoc]

mutual

/-- Whether an instruction assigns a local or is a block with one that does. -/
def assigns (name : String) : Instr → Bool
  | localTee target => target == name
  | block body => writesLocal name body
  | _ => false

/-- Whether code assigns a local anywhere, in blocks too. -/
def writesLocal (name : String) : List Instr → Bool
  | [] => false
  | i :: is => i.assigns name || writesLocal name is

end

theorem writesLocal_append (name : String) (a b : List Instr) :
    writesLocal name (a ++ b) = (writesLocal name a || writesLocal name b) := by
  induction a with
  | nil => simp [writesLocal]
  | cons i is ih => simp [writesLocal, ih, Bool.or_assoc]

/-! ## Equality -/

mutual

/-- Whether two instructions are the same. -/
def same : Instr → Instr → Bool
  | i32Const a, i32Const b => a == b
  | f32Const a, f32Const b => a == b
  | arithmetic t o, arithmetic t' o' => t == t' && o == o'
  | globalGet a, globalGet b => a == b
  | globalSet a, globalSet b => a == b
  | localGet a, localGet b => a == b
  | localTee a, localTee b => a == b
  | call a, call b => a == b
  | store t o, store t' o' => t == t' && o == o'
  | block a, block b => sameAll a b
  | _, _ => false

/-- Whether two lists of instructions are the same one by one. -/
def sameAll : List Instr → List Instr → Bool
  | [], [] => true
  | i :: is, j :: js => i.same j && sameAll is js
  | _, _ => false

end

end Instr

end Chainlet
