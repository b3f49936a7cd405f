import Chainlet.Program.Basic

/-!
# Program/Equality — whether two programs are the same

`Program.same` compares programs node by node, spans included.
-/

namespace Chainlet

mutual

/-- Whether two expressions are the same, spans included. -/
def Expression.same : Expression → Expression → Bool
  | .binary l o r s, .binary l' o' r' s' => o == o' && (s == s' && (l.same l' && r.same r'))
  | .call c, .call c' => c.same c'
  | .operand v, .operand v' => v.same v'
  | _, _ => false

def Call.same : Call → Call → Bool
  | ⟨c, as, s⟩, ⟨c', as', s'⟩ => c == c' && (s == s' && sameExpressions as as')

def Operand.same : Operand → Operand → Bool
  | .literal v, .literal v' => v.same v'
  | .path p, .path p' => p == p'
  | .block b, .block b' => b.same b'
  | .group e, .group e' => e.same e'
  | _, _ => false

def Block.same : Block → Block → Bool
  | ⟨is, s⟩, ⟨is', s'⟩ => s == s' && sameItems is is'

/-- Whether two literals are the same; floats are compared by their bits. -/
def Literal.same : Literal → Literal → Bool
  | .array es s, .array es' s' => s == s' && sameExpressions es es'
  | .object fs s, .object fs' s' => s == s' && sameFields fs fs'
  | .tuple es s, .tuple es' s' => s == s' && sameExpressions es es'
  | .string v s, .string v' s' => v == v' && s == s'
  | .int v b s, .int v' b' s' => v == v' && (b == b' && s == s')
  | .float v s, .float v' s' => v == v' && s == s'
  | .boolean v s, .boolean v' s' => v == v' && s == s'
  | _, _ => false

def Field.same : Field → Field → Bool
  | ⟨k, v, s⟩, ⟨k', v', s'⟩ => k == k' && (s == s' && v.same v')

def Item.same : Item → Item → Bool
  | .statement t, .statement t' => t.same t'
  | .expression e, .expression e' => e.same e'
  | _, _ => false

def Statement.same : Statement → Statement → Bool
  | .assignment t v s, .assignment t' v' s' => t == t' && (s == s' && v.same v')
  | .definition d, .definition d' => d.same d'
  | _, _ => false

/-- Whether two definitions are the same in all their parts. -/
def Definition.same : Definition → Definition → Bool
  | ⟨k, n, g, ps, b, s⟩, ⟨k', n', g', ps', b', s'⟩ =>
    k == k' && (n == n' && (g == g' && (s == s' && (sameParameters ps ps' && sameBinding b b'))))

def Parameter.same : Parameter → Parameter → Bool
  | .named n, .named n' => n == n'
  | .pattern v, .pattern v' => v.same v'
  | _, _ => false

def Binding.same : Binding → Binding → Bool
  | ⟨b, s⟩, ⟨b', s'⟩ => s == s' && b.same b'

/-- Whether two lists of expressions are the same. -/
def sameExpressions : List Expression → List Expression → Bool
  | [], [] => true
  | e :: es, e' :: es' => e.same e' && sameExpressions es es'
  | _, _ => false

def sameFields : List Field → List Field → Bool
  | [], [] => true
  | f :: fs, f' :: fs' => f.same f' && sameFields fs fs'
  | _, _ => false

def sameItems : List Item → List Item → Bool
  | [], [] => true
  | i :: is, i' :: is' => i.same i' && sameItems is is'
  | _, _ => false

def sameParameters : List Parameter → List Parameter → Bool
  | [], [] => true
  | p :: ps, p' :: ps' => p.same p' && sameParameters ps ps'
  | _, _ => false

def sameBinding : Option Binding → Option Binding → Bool
  | none, none => true
  | some b, some b' => b.same b'
  | _, _ => false

end

/-- Whether two elements of a program are the same. -/
def Element.same : Element → Element → Bool
  | item i, item i' => i.same i'
  | docComment c, docComment c' => c == c'
  | _, _ => false

/-- Whether two programs are the same. -/
def Program.same (p q : Program) : Bool :=
  p.span == q.span &&
    (p.elements.length == q.elements.length &&
      (p.elements.zip q.elements).all fun (a, b) => a.same b)

end Chainlet
