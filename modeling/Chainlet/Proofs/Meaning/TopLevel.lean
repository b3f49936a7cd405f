import Mathlib
import Chainlet.Proofs.Meaning.Compiled

/-!
# Proofs/Meaning/TopLevel — the code at module scope does what the program means

Each element of a program has a piece of the code at module scope, and that piece leaves the words
that the element leaves (`Element.implements_topLevelCode`).  The pieces run one after another, so
the module of a program runs as the program executes (`Program.follows_topLevelCode`).
-/

namespace Chainlet

variable {o : Options} {floats : FloatUnit}

/-! ## Pieces that leave any number of words -/

/-- A result that is looked at in another way. -/
theorem Implements.map {α β : Type} {view : α → List UInt32 × Store}
    {view' : β → List UInt32 × Store} {meaning : Store → Except Halt α} {code : List Instr}
    (f : α → β) (hf : ∀ a, view' (f a) = view a) (h : Implements o floats view meaning code) :
    Implements o floats view' (fun s => do pure (f (← meaning s))) code where
  noFloat := h.noFloat
  follows {m s} hm := by
    rw [← bind_pure (m.run (o.runtime floats) code)]
    refine (h.follows hm).bind fun a m' _ hstack hm' => ?_
    rw [← hf a] at hstack hm'
    exact .done hstack hm'

theorem implements_nothing : Implements o floats id (fun s => .ok ([], s)) [] where
  noFloat := rfl
  follows hm := .done rfl hm

/-- The words of the second piece end up above those of the first. -/
theorem Implements.sequence {first second : Store → Except Halt (List UInt32 × Store)}
    {a b : List Instr} (ha : Implements o floats id first a) (hb : Implements o floats id second b) :
    Implements o floats id (fun s => do
      let (ws, s) ← first s
      let (vs, s) ← second s
      pure (vs ++ ws, s)) (a ++ b) where
  noFloat := by simp [Instr.pushesFloat_append, ha.noFloat, hb.noFloat]
  follows {m s} hm := by
    rw [Machine.run_append]
    refine (ha.follows hm).bind fun ⟨ws, s₁⟩ m₁ _ hstack₁ hm₁ => ?_
    rw [← bind_pure (m₁.run (o.runtime floats) b)]
    refine (hb.follows hm₁).bind fun ⟨vs, s₂⟩ m₂ _ hstack₂ hm₂ => .done ?_ hm₂
    rw [hstack₂, hstack₁]
    simp

/-- A constant on top of a word. -/
theorem Implements.pushed {meaning : Store → Except Halt (UInt32 × Store)} {code : List Instr}
    (h : Implements o floats leavesWord meaning code) (v : UInt32) :
    Implements o floats id (fun s => do
      let (w, s) ← meaning s
      pure ([v, w], s)) (code ++ [.i32Const v]) where
  noFloat := by simp [Instr.pushesFloat_append, h.noFloat, Instr.pushesFloat, Instr.hasFloat]
  follows {m s} hm := by
    rw [Machine.run_append]
    refine (h.follows hm).bind ?_
    rintro ⟨w, s'⟩ m' - hstack hm'
    have hstep : m'.run (o.runtime floats) [.i32Const v] = .ok (m'.push (.word v)) := rfl
    rw [hstep]
    refine .done ?_ (hm'.push _)
    rw [Machine.push, hstack]
    rfl

/-! ## Arrays -/

/-- The code of elements writes them one by one behind the base of their array. -/
theorem stores_elementsCode {base : UInt32} (elements : List Expression) {i : Nat}
    {offset : UInt32} {code : List Instr}
    (hs : elements.all (Expression.isScalar o.heapGlobal) = true)
    (h : elementsCode o offset elements = .ok code) (hoffset : offset.toNat = 4 * i)
    (hlength : i + elements.length < compositeLimit) :
    Stores o floats base (evaluateElements base i elements) code := by
  induction elements generalizing i offset code with
  | nil =>
    rw [elementsCode] at h
    cases h
    exact stores_nil base
  | cons e es ih =>
    rw [List.all_cons, Bool.and_eq_true] at hs
    rw [List.length_cons] at hlength
    rw [elementsCode] at h
    obtain ⟨value, hvalue, h⟩ := bind_eq_ok.1 h
    obtain ⟨stored, hstored, h⟩ := bind_eq_ok.1 h
    obtain ⟨rest, hrest, h⟩ := bind_eq_ok.1 h
    cases h
    obtain ⟨rfl, hkeeps⟩ := storedCode_eq_ok hstored
    have hmore := ih hs.2 hrest (toNat_nextOffset hoffset (by omega)) (by omega)
    exact Stores.entry (e.implements_code hs.1 hvalue) hkeeps hoffset hmore

theorem implements_array {elements : List Expression} {span : Option Span} {code : List Instr}
    (hlength : elements.length < compositeLimit)
    (hs : elements.all (Expression.isScalar o.heapGlobal) = true)
    (h : (Literal.array elements span).code o = .ok code) :
    Implements o floats id (fun s => do
      let s' ← evaluateElements s.heap 0 elements (s.allocate elements.length)
      pure ([UInt32.ofNat elements.length, s.heap], s')) code := by
  rw [Literal.code, word?_of_lt hlength] at h
  obtain ⟨stores, hstores, h⟩ := bind_eq_ok.1 h
  cases h
  have helements : ∀ base, Stores o floats base (evaluateElements base 0 elements) stores :=
    fun base => stores_elementsCode elements hs hstores rfl (by simpa using hlength)
  refine ((Implements.allocated elements.length helements).pushed _).of_eq fun s => ?_
  rw [bind_assoc]
  rfl

/-! ## Items and elements -/

/-- An expression that is an item leaves its word. -/
theorem Expression.implements_item {e : Expression} {code : List Instr}
    (hs : e.isScalar o.heapGlobal = true) (h : e.code o = .ok code) :
    Implements o floats id (fun s => do
      let (w, s) ← e.evaluate s
      pure ([w], s)) code :=
  (e.implements_code hs h).map leavesWord fun _ => rfl

/-- **The code of an item leaves the words that the item leaves.** -/
theorem Item.implements_code {i : Item} {code : List Instr} (hs : i.isScalar o.heapGlobal = true)
    (h : i.code o = .ok code) : Implements o floats id i.execute code := by
  unfold Item.isScalar at hs
  split at hs
  case h_1 target value span =>
    rw [Bool.and_eq_true, bne_iff_ne] at hs
    rw [Item.code, codeBefore_nil] at h
    obtain ⟨v, hv, h⟩ := bind_eq_ok.1 h
    cases h
    refine (((value.implements_code hs.2 hv).assign hs.1).map leavesNothing fun _ => rfl).of_eq
      fun s => ?_
    rw [bind_assoc]
    rfl
  case h_2 => cases h
  case h_3 elements span =>
    rw [Bool.and_eq_true, decide_eq_true_eq] at hs
    rw [Item.code, codeBefore_nil, Expression.code_operand, Operand.code] at h
    exact implements_array hs.1 hs.2 h
  case h_4 e hne =>
    rw [Item.code, codeBefore_nil] at h
    refine (Expression.implements_item hs h).of_eq fun s => ?_
    rw [Item.execute]
    exact hne

/-- The code at module scope of one element. -/
def topLevelCodeOf (unit? : Option ModuleUnit) : List Instr :=
  unit?.toList.flatMap ModuleUnit.topLevelCode

/-- **The piece of an element leaves the words that the element leaves.**  A comment and a definition
have no code at module scope. -/
theorem Element.implements_topLevelCode {e : Element} {unit? : Option ModuleUnit}
    (hs : e.isScalar o.heapGlobal = true) (h : e.unit? o = .ok unit?) :
    Implements o floats id e.execute (topLevelCodeOf unit?) := by
  unfold Element.unit? at h
  split at h
  case h_1 => cases h; exact implements_nothing
  case h_2 d =>
    obtain ⟨f, hf, h⟩ := bind_eq_ok.1 h
    cases h
    exact implements_nothing
  case h_3 i _ =>
    obtain ⟨code, hcode, h⟩ := bind_eq_ok.1 h
    cases h
    rw [topLevelCodeOf, Option.toList, List.flatMap_singleton]
    exact Item.implements_code hs hcode

/-! ## Programs -/

theorem implements_unitsOf (elements : List Element) {units : List ModuleUnit}
    (hs : elements.all (Element.isScalar o.heapGlobal) = true)
    (h : unitsOf o elements = .ok units) :
    Implements o floats id (executeAll elements) (units.flatMap ModuleUnit.topLevelCode) := by
  induction elements generalizing units with
  | nil => cases h; exact implements_nothing
  | cons e es ih =>
    rw [List.all_cons, Bool.and_eq_true] at hs
    obtain ⟨unit?, hunit, h⟩ := bind_eq_ok.1 h
    obtain ⟨rest, hrest, h⟩ := bind_eq_ok.1 h
    cases h
    rw [List.flatMap_append]
    exact (Element.implements_topLevelCode hs.1 hunit).sequence (ih hs.2 hrest)

/-- **The code at module scope does what the program means.**  From every store, and whatever is on
the stack below, the run ends as the program executes: with the words that its expressions leave on
top of the stack, the last one first, and the globals, the heap pointer and the memory that the
program reaches, or in a trap exactly where the program traps. -/
theorem Program.follows_topLevelCode (o : Options) (floats : FloatUnit) {p : Program} {md : Module}
    (hmodule : p.module o = .ok md) (hscalar : p.isScalar o.heapGlobal = true) {m : Machine}
    {s : Store} (hm : m.Represents o.heapGlobal s) :
    Follows o.heapGlobal m.stack id (p.execute s) (m.run (o.runtime floats) md.topLevelCode) := by
  obtain ⟨units, hunits, h⟩ := bind_eq_ok.1 hmodule
  cases h
  exact (implements_unitsOf p.elements hscalar hunits).follows hm

/-- `$[{ half = 21; half } * 2, half / @true]`: the block inside the first element assigns the global
that the second one reads. -/
def blockInArray : Program where
  elements := [.item (.expression (.operand (.literal (.array
    [.binary (.operand (.block ⟨[
        .statement (.assignment ⟨["half"], none⟩
          (.operand (.literal (.int "21" .decimal none))) none),
        .expression (.operand (.path ⟨["half"], none⟩))], none⟩)) "*"
      (.literal (.int "2" .decimal none)) none,
    .binary (.operand (.path ⟨["half"], none⟩)) "/" (.literal (.boolean true none)) none] none))))]

/-- The array has the two elements 42 and 21, and its address and its length are left. -/
theorem blockInArray_follows : ∃ md, blockInArray.module {} = .ok md ∧
    blockInArray.isScalar "heap" = true ∧ ∀ (floats : FloatUnit) (s : Store),
      blockInArray.execute s = .ok ([2, s.heap],
        (((s.allocate 2).assign "half" 21).write s.heap.toNat 42).write (s.heap.toNat + 4) 21) ∧
      Follows "heap" [] id (blockInArray.execute s)
        ((Machine.ofStore "heap" s).run (Options.runtime {} floats) md.topLevelCode) :=
  ⟨_, rfl, by decide, fun floats s => ⟨by cbv, Program.follows_topLevelCode {} floats
    (show blockInArray.module {} = .ok _ from rfl) (by decide)
    (Machine.ofStore_represents "heap" s)⟩⟩

end Chainlet
