import Chainlet.Module.OfProgram
import Chainlet.Narration.Note
import Chainlet.Program.Composite

/-!
# Narration/Generating — what generation meets, and what is told of it

An `Event` is what generation meets at a node, in the order in which the nodes are compiled: something
to tell, or something that has no code. Generation stops at the first refusal, and what is told is
what came before it (`Event.told`).
-/

namespace Chainlet

/-- What generation meets at a node. -/
inductive Event where
  | note (n : Note)
  | refusal (r : Refusal)
deriving DecidableEq, Repr

namespace Event

/-- The notes before the first refusal. -/
def told : List Event → List Note
  | [] => []
  | .note n :: es => n :: told es
  | .refusal _ :: _ => []

/-- The first refusal. -/
def firstRefusal? : List Event → Option Refusal
  | [] => none
  | .note _ :: es => firstRefusal? es
  | .refusal r :: _ => some r

/-- A refusal unless a condition holds. -/
def require (condition : Bool) (r : Refusal) : List Event := if condition then [] else [.refusal r]

end Event

mutual

/-- The events of an expression: the operands from the left, each operator behind its right operand. -/
def Expression.events : Expression → List Event
  | .binary left operator right _ =>
    left.events ++ right.events ++
      Event.require (operation? operator).isSome (.unknownOperator operator)
  | .call c => c.events
  | .operand value => value.events

def Call.events : Call → List Event
  | ⟨_, arguments, _⟩ => argumentsEvents arguments

def Operand.events : Operand → List Event
  | .literal value => value.events
  | .path _ => []
  | .block b => b.events
  | .group inner => inner.events

def Block.events : Block → List Event
  | ⟨items, _⟩ => itemsEvents items

/-- The events of a literal: a string is told of, and a tuple is refused. -/
def Literal.events : Literal → List Event
  | .int text base _ => Event.require (intValue? base text).isSome (.invalidInteger text)
  | .float _ _ | .boolean _ _ => []
  | .string content _ => [.note (.placeholder content)]
  | .array elements _ =>
    Event.require (word? elements.length).isSome .arrayTooLong ++ elementsEvents elements
  | .object fields _ => fieldsEvents fields
  | .tuple _ _ => [.refusal .tupleLiteral]

/-- An assignment is noted behind its value. -/
def Item.events : Item → List Event
  | .expression e => e.events
  | .statement (.assignment target value _) => value.events ++ [.note (.assigned target.flatten)]
  | .statement (.definition _) => [.refusal .nestedDefinition]

def argumentsEvents : List Expression → List Event
  | [] => []
  | e :: es => e.events ++ argumentsEvents es

/-- The events of elements; one with an array or object in it is refused after its own events. -/
def elementsEvents : List Expression → List Event
  | [] => []
  | e :: es => e.events ++ Event.require (!e.hasComposite) .nestedComposite ++ elementsEvents es

/-- A field may be refused behind the code of its value. -/
def fieldsEvents : List Field → List Event
  | [] => []
  | ⟨_, e, _⟩ :: fs =>
    e.events ++ Event.require (!e.hasComposite) .nestedComposite ++ fieldsEvents fs

def itemsEvents : List Item → List Event
  | [] => []
  | i :: is => i.events ++ itemsEvents is

end

/-- The events of a definition at the top level. -/
def Definition.events (o : Options) (d : Definition) : List Event :=
  let erased := match d.generics with
    | some g => [.note (.erased g.names d.name.name)]
    | none => []
  let body := match d.binding with
    | some b =>
      (if d.scratch o = o.scratch then [] else [.note (.renamed d.name.name (d.scratch o))]) ++
        b.body.events
    | none => []
  let emitted := match d.function o with
    | .ok f => [.note (.emitted d.keyword d.name.name f.body.length)]
    | .error _ => []
  erased ++ body ++ emitted

/-- What happens while an element gets its code. -/
def Element.events (o : Options) : Element → List Event
  | .docComment _ => []
  | .item (.statement (.definition d)) => d.events o
  | .item i => i.events

/-- The events of a program. -/
def Program.events (o : Options) (p : Program) : List Event := p.elements.flatMap (Element.events o)

/-- **The notes on the generation of a module**, up to what stopped it. -/
def Program.generatingNotes (o : Options) (p : Program) : List Note := Event.told (p.events o)

end Chainlet
