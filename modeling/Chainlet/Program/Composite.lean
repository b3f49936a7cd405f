import Chainlet.Program.Basic

/-!
# Program/Composite — where arrays and objects occur

`Expression.hasComposite` says that an array or an object occurs in an expression at any depth:
inside calls, groups, blocks and assignments. Nested definitions and tuples have no code and do not
count.
-/

namespace Chainlet

mutual

/-- Whether an array or object occurs in an expression. -/
def Expression.hasComposite : Expression → Bool
  | .binary left _ right _ => left.hasComposite || right.hasComposite
  | .call c => c.hasComposite
  | .operand value => value.hasComposite

/-- Whether an array or an object stands among the arguments of a call. -/
def Call.hasComposite : Call → Bool
  | ⟨_, arguments, _⟩ => anyComposite arguments

/-- Whether an operand is, or holds, an array or an object. -/
def Operand.hasComposite : Operand → Bool
  | .literal value => value.isComposite
  | .path _ => false
  | .block b => b.hasComposite
  | .group inner => inner.hasComposite

/-- Whether an array or an object stands among the items of a block. -/
def Block.hasComposite : Block → Bool
  | ⟨items, _⟩ => anyCompositeItem items

/-- Whether a literal is an array or an object. -/
def Literal.isComposite : Literal → Bool
  | .array .. | .object .. => true
  | _ => false

/-- Whether an array or an object stands in an item; a definition is not looked into. -/
def Item.hasComposite : Item → Bool
  | .expression e => e.hasComposite
  | .statement (.assignment _ value _) => value.hasComposite
  | .statement (.definition _) => false

def anyComposite : List Expression → Bool
  | [] => false
  | e :: es => e.hasComposite || anyComposite es

def anyCompositeItem : List Item → Bool
  | [] => false
  | i :: is => i.hasComposite || anyCompositeItem is

end

end Chainlet
