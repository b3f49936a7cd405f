import Chainlet.Narration.Note
import Chainlet.Program.Basic

/-!
# Narration/Building — what is told of a program being built

Every definition of a program is told of once it is complete, so that the definitions inside it come
first, in source order.
-/

namespace Chainlet

mutual

/-- The notes on the definitions in an expression. -/
def Expression.buildingNotes : Expression → List Note
  | .binary left _ right _ => left.buildingNotes ++ right.buildingNotes
  | .call c => c.buildingNotes
  | .operand value => value.buildingNotes

/-- What is noted while the arguments of a call are built. -/
def Call.buildingNotes : Call → List Note
  | ⟨_, arguments, _⟩ => expressionsBuilding arguments

/-- What is noted while what an operand holds is built. -/
def Operand.buildingNotes : Operand → List Note
  | .literal value => value.buildingNotes
  | .path _ => []
  | .block b => b.buildingNotes
  | .group inner => inner.buildingNotes

def Block.buildingNotes : Block → List Note
  | ⟨items, _⟩ => itemsBuilding items

/-- What is noted while the elements of a literal are built. -/
def Literal.buildingNotes : Literal → List Note
  | .array elements _ => expressionsBuilding elements
  | .tuple elements _ => expressionsBuilding elements
  | .object fields _ => fieldsBuilding fields
  | _ => []

/-- What is noted while an item is built. -/
def Item.buildingNotes : Item → List Note
  | .expression e => e.buildingNotes
  | .statement (.assignment _ value _) => value.buildingNotes
  | .statement (.definition d) => d.buildingNotes

/-- A definition is noted behind its parameters and its body. -/
def Definition.buildingNotes : Definition → List Note
  | ⟨keyword, name, _, parameters, binding, _⟩ =>
    parametersBuilding parameters ++ bindingBuilding binding ++
      [.defined keyword name.name parameters.length]

def expressionsBuilding : List Expression → List Note
  | [] => []
  | e :: es => e.buildingNotes ++ expressionsBuilding es

def fieldsBuilding : List Field → List Note
  | [] => []
  | ⟨_, value, _⟩ :: fs => value.buildingNotes ++ fieldsBuilding fs

def itemsBuilding : List Item → List Note
  | [] => []
  | i :: is => i.buildingNotes ++ itemsBuilding is

def parametersBuilding : List Parameter → List Note
  | [] => []
  | .named _ :: ps => parametersBuilding ps
  | .pattern value :: ps => value.buildingNotes ++ parametersBuilding ps

def bindingBuilding : Option Binding → List Note
  | none => []
  | some ⟨body, _⟩ => body.buildingNotes

end

/-- What is noted while an element is built. -/
def Element.buildingNotes : Element → List Note
  | .item i => i.buildingNotes
  | .docComment _ => []

/-- **The notes on a program being built**: its definitions, then the program itself. -/
def Program.buildingNotes (p : Program) : List Note :=
  p.elements.flatMap Element.buildingNotes ++ [.built p.elements.length]

end Chainlet
