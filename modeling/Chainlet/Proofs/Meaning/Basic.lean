import Mathlib.Algebra.Group.Nat.Defs
import Chainlet.Program.Hint
import Chainlet.Program.Integer
import Chainlet.Proofs.Machine.Basic

/-!
# Proofs/Meaning/Basic — what a program of words means

`Expression.evaluate` computes an expression of words on the program itself, without code: operands
from the left, each operator on everything before it, no stack and no scratch local.  An object
takes as many words of the heap as it has fields, then its fields are evaluated and written one by
one, and its address is its value.  `Program.execute` runs the items of a program and collects the
values that its expressions leave.

`isScalar` delimits the programs this is the whole meaning of: no calls, no floats, no tuples,
arrays only as a whole item, and the heap pointer is not among their globals.
-/

namespace Chainlet

/-! ## Stores -/

/-- What a program reads and writes: its globals by their flattened names, the first free address,
and the words in memory. -/
structure Store where
  globals : String → UInt32
  heap : UInt32
  memory : Nat → Option UInt32

namespace Store

def assign (s : Store) (name : String) (w : UInt32) : Store :=
  { s with globals := fun g => if g = name then w else s.globals g }

def write (s : Store) (address : Nat) (w : UInt32) : Store :=
  { s with memory := fun a => if a = address then some w else s.memory a }

/-- Take a number of words off the heap; the heap pointer wraps around. -/
def allocate (s : Store) (words : Nat) : Store :=
  { s with heap := s.heap + UInt32.ofNat (4 * words) }

end Store

/-- The number of elements that a composite literal stays below: so many words have addresses. -/
def compositeLimit : Nat := 2 ^ 30

/-- Fewer elements than that can be counted in a word. -/
theorem word?_of_lt {n : Nat} (h : n < compositeLimit) : word? n = some (UInt32.ofNat n) :=
  if_pos (by unfold compositeLimit at h; rw [UInt32.size]; omega)

/-! ## Evaluation -/

/-- The result of an operator on two words. -/
def operatorResult (a : UInt32) (operator : String) (b : UInt32) : Except Halt UInt32 :=
  match operator with
  | "+" => .ok (a + b)
  | "-" => .ok (a - b)
  | "*" => .ok (a * b)
  | "/" =>
    match signedQuotient? a b with
    | some w => .ok w
    | none => .error .trap
  | _ => .error .stuck

mutual

/-- The word an expression evaluates to, and the store after it. -/
def Expression.evaluate : Expression → Store → Except Halt (UInt32 × Store)
  | .binary left operator right _, s => do
    let (a, s) ← left.evaluate s
    let (b, s) ← right.evaluate s
    let w ← operatorResult a operator b
    pure (w, s)
  | .call _, _ => .error .stuck
  | .operand value, s => value.evaluate s

def Operand.evaluate : Operand → Store → Except Halt (UInt32 × Store)
  | .literal value, s => value.evaluate s
  | .path p, s => .ok (s.globals p.flatten, s)
  | .block b, s => b.evaluate s
  | .group inner, s => inner.evaluate s

def Block.evaluate : Block → Store → Except Halt (UInt32 × Store)
  | ⟨items, _⟩, s => evaluateItems items s

/-- A string is the null address. -/
def Literal.evaluate : Literal → Store → Except Halt (UInt32 × Store)
  | .int text base _, s =>
    match intValue? base text with
    | some w => .ok (w, s)
    | none => .error .stuck
  | .boolean value _, s => .ok (if value then 1 else 0, s)
  | .string _ _, s => .ok (0, s)
  | .object fields _, s => do
    let s' ← evaluateFields s.heap 0 fields (s.allocate fields.length)
    pure (s.heap, s')
  | .array _ _, _ | .tuple _ _, _ | .float _ _, _ => .error .stuck

/-- Write the fields from the one numbered `i` on behind a base. -/
def evaluateFields (base : UInt32) (i : Nat) : List Field → Store → Except Halt Store
  | [], s => .ok s
  | ⟨_, e, _⟩ :: fs, s => do
    let (w, s) ← e.evaluate s
    evaluateFields base (i + 1) fs (s.write (base.toNat + 4 * i) w)

/-- The assignments in order, and then the value of the final expression. -/
def evaluateItems : List Item → Store → Except Halt (UInt32 × Store)
  | .statement (.assignment target value _) :: is, s => do
    let (w, s) ← value.evaluate s
    evaluateItems is (s.assign target.flatten w)
  | [.expression e], s => e.evaluate s
  | _, _ => .error .stuck

end

/-- Write elements from the one numbered `i` on behind a base. -/
def evaluateElements (base : UInt32) (i : Nat) : List Expression → Store → Except Halt Store
  | [], s => .ok s
  | e :: es, s => do
    let (w, s) ← e.evaluate s
    evaluateElements base (i + 1) es (s.write (base.toNat + 4 * i) w)

/-! ## Execution -/

/-- The words that an item leaves, the last one first, and the store after it.  An array leaves its
address and above it its length. -/
def Item.execute : Item → Store → Except Halt (List UInt32 × Store)
  | .statement (.assignment target value _), s => do
    let (w, s) ← value.evaluate s
    pure ([], s.assign target.flatten w)
  | .expression (.operand (.literal (.array elements _))), s => do
    let s' ← evaluateElements s.heap 0 elements (s.allocate elements.length)
    pure ([UInt32.ofNat elements.length, s.heap], s')
  | .expression e, s => do
    let (w, s) ← e.evaluate s
    pure ([w], s)
  | .statement (.definition _), s => .ok ([], s)

def Element.execute : Element → Store → Except Halt (List UInt32 × Store)
  | .docComment _, s => .ok ([], s)
  | .item i, s => i.execute s

def executeAll : List Element → Store → Except Halt (List UInt32 × Store)
  | [], s => .ok ([], s)
  | e :: es, s => do
    let (ws, s) ← e.execute s
    let (vs, s) ← executeAll es s
    pure (vs ++ ws, s)

/-- **What a program does:** the words its expressions leave, the last one first, and the store. -/
def Program.execute (p : Program) (s : Store) : Except Halt (List UInt32 × Store) :=
  executeAll p.elements s

/-! ## Programs of words -/

mutual

/-- Whether an expression is made of words alone and does not name the heap pointer. -/
def Expression.isScalar (heapGlobal : String) : Expression → Bool
  | .binary left _ right _ => left.isScalar heapGlobal && right.isScalar heapGlobal
  | .call _ => false
  | .operand value => value.isScalar heapGlobal

def Operand.isScalar (heapGlobal : String) : Operand → Bool
  | .literal value => value.isScalar heapGlobal
  | .path p => p.flatten != heapGlobal
  | .block b => b.isScalar heapGlobal
  | .group inner => inner.isScalar heapGlobal

def Block.isScalar (heapGlobal : String) : Block → Bool
  | ⟨items, _⟩ => scalarItems heapGlobal items

def Literal.isScalar (heapGlobal : String) : Literal → Bool
  | .int .. | .boolean .. | .string .. => true
  | .object fields _ => decide (fields.length < compositeLimit) && scalarFields heapGlobal fields
  | .array .. | .tuple .. | .float .. => false

/-- Fields that are stored as integers. -/
def scalarFields (heapGlobal : String) : List Field → Bool
  | [] => true
  | ⟨key, e, _⟩ :: fs =>
    key.typeHint != "f32" && (e.isScalar heapGlobal && scalarFields heapGlobal fs)

/-- Assignments, and then exactly one expression. -/
def scalarItems (heapGlobal : String) : List Item → Bool
  | .statement (.assignment target value _) :: is =>
    target.flatten != heapGlobal && (value.isScalar heapGlobal && scalarItems heapGlobal is)
  | [.expression e] => e.isScalar heapGlobal
  | _ => false

end

/-- Whether an item at the top level is made of words; nothing is asked of definitions. -/
def Item.isScalar (heapGlobal : String) : Item → Bool
  | .statement (.assignment target value _) =>
    target.flatten != heapGlobal && value.isScalar heapGlobal
  | .statement (.definition _) => true
  | .expression (.operand (.literal (.array elements _))) =>
    decide (elements.length < compositeLimit) && elements.all (Expression.isScalar heapGlobal)
  | .expression e => e.isScalar heapGlobal

def Element.isScalar (heapGlobal : String) : Element → Bool
  | .docComment _ => true
  | .item i => i.isScalar heapGlobal

/-- Whether the code of a program at module scope works on words alone. -/
def Program.isScalar (heapGlobal : String) (p : Program) : Bool :=
  p.elements.all (Element.isScalar heapGlobal)

end Chainlet
