import Chainlet.Module.Basic
import Chainlet.Module.Code

/-!
# Module/OfProgram — the module of a program

Every definition at the top level becomes a function, and every other item becomes code at module
scope; comments become nothing. The local in which a function keeps the addresses of composite
literals is named apart from its parameters (`freshName`).
-/

namespace Chainlet

/-! ## Names that are not taken -/

/-- A search for a name that is not taken: the name in hand, and the number that was tried last.  The
number is a word with a sign; behind the largest one the numbers go on at the least. -/
structure NameSearch where
  name : String
  number : Int32

namespace NameSearch

/-- A search starts with a name that has no number behind it. -/
def start (base : String) : NameSearch := ⟨base, 0⟩

/-- The next number, behind the base. -/
def next (base : String) (s : NameSearch) : NameSearch :=
  ⟨base ++ toString (s.number + 1), s.number + 1⟩

/-- Up to a number of turns of a search: each one takes the next number, unless the name in hand is
free. -/
def advance (base : String) (taken : List String) : Nat → NameSearch → NameSearch
  | 0, s => s
  | n + 1, s => if s.name ∈ taken then advance base taken n (s.next base) else s

end NameSearch

/-- **The name that a search ends with.**  The search starts with a name, and puts one number after the
other behind it as long as the name in hand is taken.  As many turns as there are names taken bring each
search to its end that has one; none has, where the name is taken with every number. -/
def freshName (base : String) (taken : List String) : String :=
  (NameSearch.advance base taken taken.length (.start base)).name

theorem freshName_of_not_mem {base : String} {taken : List String} (h : base ∉ taken) :
    freshName base taken = base := by
  rw [freshName]
  cases taken.length with
  | zero => rfl
  | succ n => rw [NameSearch.advance, if_neg (show (NameSearch.start base).name ∉ taken from h)]; rfl

/-! ## Definitions and programs -/

namespace Definition

/-- The names of the parameters that have one. -/
def parameterNames (d : Definition) : List String := d.parameters.filterMap Parameter.name?

/-- The local in which a function keeps addresses. -/
def scratch (o : Options) (d : Definition) : String := freshName o.scratch d.parameterNames

/-- The function of a definition. A stub has no instructions. -/
def function (o : Options) (d : Definition) : Coded Function := do
  let scratch := d.scratch o
  let body ← match d.binding with
    | none => pure []
    | some b => b.body.code (o.withScratch scratch)
  pure ⟨d.name.name, d.parameters.map Parameter.name?, [scratch], body⟩

end Definition

/-- The unit of an element, if it has one. -/
def Element.unit? (o : Options) : Element → Coded (Option ModuleUnit)
  | .docComment _ => pure none
  | .item (.statement (.definition d)) => return some (.function (← d.function o))
  | .item i => return some (.code (← i.code o))

/-- The units of elements in order; the first element that is refused decides. -/
def unitsOf (o : Options) : List Element → Coded (List ModuleUnit)
  | [] => pure []
  | e :: es => do
    let unit? ← e.unit? o
    let units ← unitsOf o es
    pure (unit?.toList ++ units)

/-- **The module of a program.** -/
def Program.module (o : Options) (p : Program) : Coded Module := do
  let units ← unitsOf o p.elements
  pure ⟨o.memoryPages, o.heapGlobal, o.heapBase, units⟩

end Chainlet
