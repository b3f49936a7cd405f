import Chainlet.Module.Instr

/-!
# Module/Basic — modules and their text

A `Module` is a header, which declares the memory and the heap pointer, and its units in source order:
functions, and code at module scope. The text of a module is a line for the module itself, two for
the header, the lines of the units one after another, and a closing line (`Module.lines`).
-/

namespace Chainlet

/-- A function. A parameter without a name stands for a pattern; every parameter and every local is
an integer. -/
structure Function where
  name : String
  parameters : List (Option String)
  locals : List String
  body : List Instr

/-- A unit of a module: code at module scope, or a function. -/
inductive ModuleUnit where
  | code (body : List Instr)
  | function (f : Function)

/-- A module. -/
structure Module where
  memoryPages : UInt32
  heapGlobal : String
  heapBase : UInt32
  units : List ModuleUnit

/-- Each line of a text ends with a line break. -/
def joinLines (lines : List String) : String := String.join (lines.map (· ++ "\n"))

namespace Function

/-- The line that declares a function with its parameters and locals. -/
def signature (f : Function) : String :=
  "(func $" ++ f.name ++
    String.join (f.parameters.map fun p => match p with
      | some name => " (param $" ++ name ++ " i32)"
      | none => " (param i32)") ++
    String.join (f.locals.map fun name => " (local $" ++ name ++ " i32)")

/-- The lines of a function at a level of indentation. -/
def lines (depth : Nat) (f : Function) : List String :=
  (indent depth ++ f.signature) :: (Instr.linesAll (depth + 1) f.body ++ [indent depth ++ ")"])

/-- The text of a function on its own. -/
def text (f : Function) : String := joinLines (f.lines 0)

end Function

namespace ModuleUnit

/-- The instructions of a unit. -/
def instructions : ModuleUnit → List Instr
  | code body => body
  | function f => f.body

/-- The lines of a unit in its module. -/
def lines : ModuleUnit → List String
  | code body => Instr.linesAll 1 body
  | function f => f.lines 1

def function? : ModuleUnit → Option Function
  | code _ => none
  | function f => some f

/-- The instructions at module scope. -/
def topLevelCode : ModuleUnit → List Instr
  | code body => body
  | function _ => []

/-- Whether two units are the same. -/
def same : ModuleUnit → ModuleUnit → Bool
  | code a, code b => Instr.sameAll a b
  | function f, function g =>
    f.name == g.name && (f.parameters == g.parameters &&
      (f.locals == g.locals && Instr.sameAll f.body g.body))
  | _, _ => false

end ModuleUnit

namespace Module

/-- The functions of a module, in order. -/
def functions (m : Module) : List Function := m.units.filterMap ModuleUnit.function?

/-- The first function of a name. -/
def function? (m : Module) (name : String) : Option Function :=
  m.functions.find? fun f => f.name == name

/-- All instructions at module scope, in order. -/
def topLevelCode (m : Module) : List Instr := m.units.flatMap ModuleUnit.topLevelCode

/-- The lines in front of the units. -/
def header (m : Module) : List String :=
  ["(module", "  (memory " ++ toString m.memoryPages.toNat ++ ")",
    "  (global $" ++ m.heapGlobal ++ " (mut i32) (i32.const " ++ toString m.heapBase.toNat ++ "))"]

/-- The lines of a module. -/
def lines (m : Module) : List String := m.header ++ m.units.flatMap ModuleUnit.lines ++ [")"]

/-- **The text of a module.** -/
def text (m : Module) : String := joinLines m.lines

/-- Whether two modules are the same. -/
def same (m m' : Module) : Bool :=
  m.memoryPages == m'.memoryPages && (m.heapGlobal == m'.heapGlobal &&
    (m.heapBase == m'.heapBase && (m.units.length == m'.units.length &&
      (m.units.zip m'.units).all fun (a, b) => a.same b)))

end Module

end Chainlet
