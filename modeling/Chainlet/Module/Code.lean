import Chainlet.Module.Instr
import Chainlet.Module.Options
import Chainlet.Module.Refusal
import Chainlet.Program.Integer

/-!
# Module/Code — the instructions of expressions

An operand pushes its value. A chain pushes its head and then, for each operator, the right operand
and the operation; once any operand so far has pushed a float constant, the operations are those of
floats (`ChainCode.extend`). A chain is walked down its left spine with the code of the operands met
on the way set aside, and put together from the head outwards.

An array or object is allocated, its address is kept in the scratch local, and each element or field
is stored behind it. A value whose own code assigns that local is refused (`storedCode`).
-/

namespace Chainlet

/-- The code of a part of a program, or why it has none. -/
abbrev Coded (α : Type) := Except Refusal α

/-- The operation of an operator. -/
def operation? : String → Option Arithmetic
  | "+" => some .add
  | "-" => some .sub
  | "*" => some .mul
  | "/" => some .div
  | _ => none

/-! ## Chains -/

/-- An operator met on the way down a spine, with the code of the operand on its right. -/
structure PendingOperand where
  operator : String
  code : Coded (List Instr)

/-- The code of the operands so far, and whether a float constant is in it. -/
structure ChainCode where
  code : Array Instr
  float : Bool

namespace ChainCode

/-- A chain with only its head. -/
def ofHead (code : List Instr) : ChainCode := ⟨code.toArray, Instr.pushesFloat code⟩

/-- A chain with one more operand. The operand is refused before the operator. -/
def extend (left : ChainCode) (next : PendingOperand) : Coded ChainCode := do
  let right ← next.code
  let float := left.float || Instr.pushesFloat right
  match operation? next.operator with
  | some operation =>
    pure ⟨(left.code ++ right).push (.arithmetic (if float then .f32 else .i32) operation), float⟩
  | none => throw (.unknownOperator next.operator)

/-- The code of a head and the operands after it. -/
def assemble (head : List Instr) (rest : List PendingOperand) : Coded (List Instr) := do
  let whole ← rest.foldlM extend (ofHead head)
  pure whole.code.toList

end ChainCode

/-! ## Calls and composite literals -/

/-- The function that a call names: a keyword without its at sign, behind the namespace of builtin
functions if there is one, or a flattened path. -/
def Callee.target (o : Options) : Callee → String
  | .builtin keyword =>
    let name := match keyword.toList with
      | '@' :: rest => String.ofList rest
      | _ => keyword
    match o.builtinNamespace with
    | some outer => outer ++ "." ++ name
    | none => name
  | .user path => path.flatten

/-- Allocate a number of words, keep the address in the scratch local and leave it on the stack. -/
def allocation (o : Options) (words : UInt32) : List Instr :=
  [.i32Const words, .call o.allocator, .localTee o.scratch]

/-- The code of a value inside a composite literal. It must not assign the scratch local, which holds
the address of that literal. -/
def storedCode (o : Options) (value : List Instr) : Coded (List Instr) :=
  if Instr.writesLocal o.scratch value then throw .nestedComposite else pure value

/-- The type in which a value without a declared type is stored. -/
def storeType (value : List Instr) : NumberType :=
  if Instr.pushesFloat value then .f32 else .i32

/-- The bytes of an object with these fields. -/
def objectSize (fields : List Field) : UInt32 := fields.foldl (fun size _ => size + wordSize) 0

/-! ## Expressions and items -/

mutual

/-- The code of an expression within a chain whose further operands, from the inside outwards, have
been met already. -/
def Expression.codeBefore (o : Options) : Expression → List PendingOperand → Coded (List Instr)
  | .binary left operator right _, rest => left.codeBefore o (⟨operator, right.code o⟩ :: rest)
  | .call c, rest => do ChainCode.assemble (← c.code o) rest
  | .operand value, rest => do ChainCode.assemble (← value.code o) rest

/-- The arguments in order, then the call. -/
def Call.code (o : Options) : Call → Coded (List Instr)
  | ⟨callee, arguments, _⟩ => return (← argumentsCode o arguments) ++ [.call (callee.target o)]

def Operand.code (o : Options) : Operand → Coded (List Instr)
  | .literal value => value.code o
  | .path p => pure [.globalGet p.flatten]
  | .block b => b.code o
  | .group inner => inner.codeBefore o []

def Block.code (o : Options) : Block → Coded (List Instr)
  | ⟨items, _⟩ => return [.block (← itemsCode o items)]

/-- A string is a null address. An array leaves its address and its length, an object its address
alone. -/
def Literal.code (o : Options) : Literal → Coded (List Instr)
  | .int text base _ =>
    match intValue? base text with
    | some value => pure [.i32Const value]
    | none => throw (.invalidInteger text)
  | .float value _ => pure [.f32Const value]
  | .boolean value _ => pure [.i32Const (if value then 1 else 0)]
  | .string _ _ => pure [.i32Const 0]
  | .array elements _ =>
    match word? elements.length with
    | some count => return allocation o count ++ (← elementsCode o 0 elements) ++ [.i32Const count]
    | none => throw .arrayTooLong
  | .object fields _ =>
    return allocation o (objectSize fields / wordSize) ++ (← fieldsCode o 0 fields)
  | .tuple _ _ => throw .tupleLiteral

/-- A definition has code only at the top level. -/
def Item.code (o : Options) : Item → Coded (List Instr)
  | .expression e => e.codeBefore o []
  | .statement (.assignment target value _) =>
    return (← value.codeBefore o []) ++ [.globalSet target.flatten]
  | .statement (.definition _) => throw .nestedDefinition

def argumentsCode (o : Options) : List Expression → Coded (List Instr)
  | [] => pure []
  | e :: es => return (← e.codeBefore o []) ++ (← argumentsCode o es)

/-- The stores of elements from an offset on. An element is stored as what its code pushes. -/
def elementsCode (o : Options) (offset : UInt32) : List Expression → Coded (List Instr)
  | [] => pure []
  | e :: es => do
    let value ← storedCode o (← e.codeBefore o [])
    let rest ← elementsCode o (offset + wordSize) es
    pure (.localGet o.scratch :: value ++ .store (storeType value) offset :: rest)

/-- The stores of fields from an offset on. A field is stored as its key declares. -/
def fieldsCode (o : Options) (offset : UInt32) : List Field → Coded (List Instr)
  | [] => pure []
  | ⟨key, e, _⟩ :: fs => do
    let value ← storedCode o (← e.codeBefore o [])
    let rest ← fieldsCode o (offset + wordSize) fs
    pure (.localGet o.scratch :: value ++ .store key.storage offset :: rest)

def itemsCode (o : Options) : List Item → Coded (List Instr)
  | [] => pure []
  | i :: is => return (← i.code o) ++ (← itemsCode o is)

end

/-- The code of an expression. -/
def Expression.code (o : Options) (e : Expression) : Coded (List Instr) := e.codeBefore o []

end Chainlet
