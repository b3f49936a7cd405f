import Chainlet.Proofs.Code.Promotion
import Chainlet.Proofs.Stack.Straight

/-!
# Proofs/Stack/Block — what a block leaves on the stack

The items of a block run one after the other, and nothing between them takes away what an expression has
left.  So a block leaves the value of its last item on top, and under it those of the expressions before
the last item (`items_add`).  It **leaves its last value alone exactly when all other items are
assignments** (`block_stack`).  To the left of it, an operator looks for its operand right under the
block's value, and finds the one in front of the block only in that case.
-/

namespace Chainlet

variable {o : Options} {r : Runtime} {a b : Nat} {x y code : List Instr}

/-! ## Code that adds values -/

/-- Code that, when it ends, has put a number of values on the stack and kept the others. -/
structure Adds (r : Runtime) (count : Nat) (code : List Instr) : Prop where
  stack : ∀ {m m' : Machine}, m.run r code = .ok m' →
    ∃ values, m'.stack = values ++ m.stack ∧ values.length = count

/-- Code that takes nothing adds its values. -/
theorem Leaves.adds (hx : Leaves r a x) : Adds r a x := ⟨hx.stack_eq⟩

namespace Adds

theorem nil : Adds r 0 [] where
  stack hrun := by
    cases hrun
    exact ⟨[], rfl, rfl⟩

/-- Pieces of code add their values one after the other. -/
theorem append (hx : Adds r a x) (hy : Adds r b y) : Adds r (a + b) (x ++ y) where
  stack hrun := by
    rw [Machine.run_append] at hrun
    obtain ⟨m₁, hrun₁, hrun⟩ := bind_eq_ok.1 hrun
    obtain ⟨first, hfirst, rfl⟩ := hx.stack hrun₁
    obtain ⟨second, hsecond, rfl⟩ := hy.stack hrun
    refine ⟨second ++ first, ?_, ?_⟩
    · rw [hsecond, hfirst, List.append_assoc]
    · rw [List.length_append, Nat.add_comm]

/-- Code that adds one value leaves it on top. -/
theorem exists_top (hx : Adds r 1 x) {m m' : Machine} (hrun : m.run r x = .ok m') :
    ∃ v, m'.stack = v :: m.stack := by
  obtain ⟨values, hstack, hlength⟩ := hx.stack hrun
  obtain ⟨v, rfl⟩ := List.length_eq_one_iff.1 hlength
  exact ⟨v, hstack⟩

/-- A write to a global takes the value again. -/
theorem globalSet (hx : Adds r 1 x) (name : String) : Adds r 0 (x ++ [.globalSet name]) where
  stack hrun := by
    rw [Machine.run_append] at hrun
    obtain ⟨m₁, hrun₁, hrun⟩ := bind_eq_ok.1 hrun
    obtain ⟨v, hstack⟩ := hx.exists_top hrun₁
    rw [Machine.run_singleton, Machine.step, Machine.pop_of_stack hstack] at hrun
    cases hrun
    exact ⟨[], rfl, rfl⟩

end Adds

/-! ## Items -/

/-- Whether an item is there for its value. -/
def Item.isExpression : Item → Bool
  | .expression _ => true
  | .statement _ => false

/-- An expression that leaves one value, or an assignment of one. -/
def Item.IsSingle (o : Options) (r : Runtime) : Item → Prop
  | .expression e | .statement (.assignment _ e _) => ∀ code, e.code o = .ok code → Adds r 1 code
  | .statement (.definition _) => False

/-- Expressions without calls, blocks, arrays leave one value. -/
theorem Expression.isSingle {floats : FloatUnit} {e : Expression} (hstraight : e.isStraight = true)
    (harrays : e.arrays = 0) : (Item.expression e).IsSingle o (o.runtime floats) := fun code h => by
  have hleaves : Leaves (o.runtime floats) (e.arrays + 1) code := e.leaves hstraight h
  rw [harrays] at hleaves
  exact hleaves.adds

/-- An expression adds one value, and a statement none. -/
theorem Item.adds {i : Item} (hi : i.IsSingle o r) (h : i.code o = .ok code) :
    Adds r ([i].countP Item.isExpression) code := by
  match i, hi with
  | .expression e, hi => exact hi code h
  | .statement (.assignment target e _), hi =>
    rw [Item.code, codeBefore_nil] at h
    obtain ⟨value, hvalue, h⟩ := bind_eq_ok.1 h
    cases h
    exact (hi value hvalue).globalSet target.flatten

/-- **Each expression among the items adds one value**, and nothing takes it away. -/
theorem items_add : ∀ (items : List Item) {code : List Instr}, (∀ i ∈ items, i.IsSingle o r) →
    itemsCode o items = .ok code → Adds r (items.countP Item.isExpression) code
  | [], _, _, h => by
    rw [itemsCode] at h
    cases h
    exact .nil
  | i :: is, _, hsingle, h => by
    rw [itemsCode] at h
    obtain ⟨first, hfirst, h⟩ := bind_eq_ok.1 h
    obtain ⟨rest, hrest, h⟩ := bind_eq_ok.1 h
    cases h
    obtain ⟨hi, his⟩ := List.forall_mem_cons.1 hsingle
    rw [List.countP_cons, ← List.countP_singleton, Nat.add_comm]
    exact (Item.adds hi hfirst).append (items_add is his hrest)

/-! ## Operators -/

/-- The code of an operator is that of its operands and one instruction. -/
theorem operatorCode_eq_ok {operator : String} (h : operatorCode operator x y = .ok code) :
    ∃ operation type, operation? operator = some operation ∧
      code = x ++ y ++ [.arithmetic type operation] := by
  unfold operatorCode at h
  split at h
  · next operation hoperation =>
    cases h
    exact ⟨operation, _, hoperation, rfl⟩
  · cases h

/-! ## Blocks -/

/-- The code of a block is that of its items but the last, and then that of the last one. -/
theorem Block.code_concat {items : List Item} {last : Expression} {span : Option Span}
    (h : Block.code o ⟨items ++ [.expression last], span⟩ = .ok code) :
    ∃ before final, itemsCode o items = .ok before ∧ last.code o = .ok final ∧
      code = [.block (before ++ final)] := by
  rw [Block.code, itemsCode_concat] at h
  obtain ⟨body, hbody, h⟩ := bind_eq_ok.1 h
  obtain ⟨before, hbefore, hbody⟩ := bind_eq_ok.1 hbody
  obtain ⟨final, hfinal, hbody⟩ := bind_eq_ok.1 hbody
  rw [Item.code, codeBefore_nil] at hfinal
  cases hbody
  cases h
  exact ⟨before, final, hbefore, hfinal, rfl⟩

/-- A block runs as its body does. -/
theorem Machine.run_block (r : Runtime) (body : List Instr) (m : Machine) :
    m.run r [.block body] = m.run r body := by
  rw [run_singleton, step]

/-- A run of a block, first the items before the last one and then that one: the earlier items leave
`count` values, and the last item leaves its value on top of them. -/
structure BlockRun (r : Runtime) (before final : List Instr) (count : Nat) (m m' : Machine)
    (value : Value) (earlier : List Value) : Prop where
  items : ∃ m₁, m.run r before = .ok m₁ ∧ m₁.stack = earlier ++ m.stack ∧ m₁.run r final = .ok m'
  stack : m'.stack = value :: earlier ++ m.stack
  length_eq : earlier.length = count

/-- Items that add values before a last one that adds its own. -/
theorem Adds.blockRun {before final : List Instr} {count : Nat} (hbefore : Adds r count before)
    (hfinal : Adds r 1 final) {m m' : Machine} (hrun : m.run r [.block (before ++ final)] = .ok m') :
    ∃ value earlier, BlockRun r before final count m m' value earlier := by
  rw [Machine.run_block, Machine.run_append] at hrun
  obtain ⟨m₁, hrun₁, hrun⟩ := bind_eq_ok.1 hrun
  obtain ⟨earlier, hearlier, hlength⟩ := hbefore.stack hrun₁
  obtain ⟨value, hvalue⟩ := hfinal.exists_top hrun
  refine ⟨value, earlier, ⟨m₁, hrun₁, hearlier, hrun⟩, ?_, hlength⟩
  rw [hvalue, hearlier, List.cons_append]

/-- The block adds one value when nothing was left before the last item. -/
theorem BlockRun.single_iff {before final : List Instr} {count : Nat} {m m' : Machine} {value : Value}
    {earlier : List Value} (h : BlockRun r before final count m m' value earlier) :
    (∃ v, m'.stack = v :: m.stack) ↔ count = 0 := by
  rw [← h.length_eq, List.length_eq_zero_iff]
  constructor
  · rintro ⟨v, hstack⟩
    rw [h.stack, List.cons_append, List.cons.injEq] at hstack
    exact List.append_left_eq_self.1 hstack.2
  · rintro rfl
    exact ⟨value, h.stack⟩

/-- A run of an operator between an expression, which leaves `a`, and a block.  The operation takes the
block's value and the one under it, the last of the earlier items' values or `a` if there is none, and
everything under these two stays. -/
structure OperatorRun (r : Runtime) (first before final : List Instr) (count : Nat)
    (operation : Arithmetic) (type : NumberType) (m m' : Machine) (a value : Value)
    (earlier : List Value) : Prop where
  operands : ∃ m₁ m₂, m.run r first = .ok m₁ ∧ m₁.stack = a :: m.stack ∧
    BlockRun r before final count m₁ m₂ value earlier
  result : ∃ left others w, earlier ++ [a] = left :: others ∧
    operation.onValues r.floats type left value = .ok w ∧ m'.stack = w :: others ++ m.stack
  length_eq : earlier.length = count

/-- An operator behind a block takes the last value of the block and whatever lies right below it. -/
theorem Adds.operatorRun {first before final : List Instr} {count : Nat} {operation : Arithmetic}
    {type : NumberType} (hfirst : Adds r 1 first) (hbefore : Adds r count before)
    (hfinal : Adds r 1 final) {m m' : Machine}
    (hrun : m.run r (first ++ [.block (before ++ final)] ++ [.arithmetic type operation]) = .ok m') :
    ∃ a value earlier, OperatorRun r first before final count operation type m m' a value earlier := by
  rw [Machine.run_append, Machine.run_append, bind_assoc] at hrun
  obtain ⟨m₁, hrun₁, hrun⟩ := bind_eq_ok.1 hrun
  obtain ⟨m₂, hrun₂, hrun⟩ := bind_eq_ok.1 hrun
  obtain ⟨a, ha⟩ := hfirst.exists_top hrun₁
  obtain ⟨value, earlier, hblock⟩ := hbefore.blockRun hfinal hrun₂
  obtain ⟨left, others, hleft⟩ : ∃ left others, earlier ++ [a] = left :: others :=
    List.exists_cons_of_ne_nil (List.concat_ne_nil a earlier)
  have hstack : m₂.stack = value :: left :: (others ++ m.stack) := by
    rw [hblock.stack, ha, List.cons_append, List.append_cons, hleft, List.cons_append]
  rw [Machine.run_singleton, Machine.step, Machine.operate_eq hstack] at hrun
  obtain ⟨w, hw, rfl⟩ := map_eq_ok.1 hrun
  exact ⟨a, value, earlier, ⟨m₁, m₂, hrun₁, ha, hblock⟩, ⟨left, others, w, hleft, hw, rfl⟩,
    hblock.length_eq⟩

/-- The operator is applied to the expression in front of the block when the block adds one value. -/
theorem OperatorRun.single_iff {first before final : List Instr} {count : Nat} {operation : Arithmetic}
    {type : NumberType} {m m' : Machine} {a value : Value} {earlier : List Value}
    (h : OperatorRun r first before final count operation type m m' a value earlier) :
    (∃ w, operation.onValues r.floats type a value = .ok w ∧ m'.stack = w :: m.stack) ↔ count = 0 := by
  obtain ⟨left, others, w, hleft, hw, hstack⟩ := h.result
  rw [← h.length_eq]
  constructor
  · rintro ⟨w', -, hstack'⟩
    rw [hstack, List.cons_append, List.cons.injEq, List.append_left_eq_self] at hstack'
    have hlength := congrArg List.length hleft
    rw [hstack'.2, List.length_append, List.length_singleton, List.length_singleton] at hlength
    omega
  · intro hnone
    rw [List.length_eq_zero_iff.1 hnone, List.nil_append] at hleft
    cases hleft
    exact ⟨w, hw, hstack⟩

/-- No item is counted if none is an expression. -/
theorem countP_isExpression_eq_zero {items : List Item} :
    items.countP Item.isExpression = 0 ↔ ∀ i ∈ items, i.isExpression = false := by
  simp only [List.countP_eq_zero, Bool.not_eq_true]

/-- **What a block leaves on the stack.**  The items before the last, assignments and expressions of one
value each, leave one value for each expression, and the last item, an expression of one value, leaves
its own above them.  So the block adds one value exactly when all items before the last are assignments.

Exactly then, too, an operator between an expression of one value and the block is applied to the value
of that expression and the last item's, and leaves the result alone.  Otherwise it takes the value of an
expression inside the block for its left operand. -/
theorem block_stack {o : Options} (floats : FloatUnit) {items : List Item} {last : Expression}
    {span : Option Span} {code : List Instr}
    (hitems : ∀ i ∈ items, i.IsSingle o (o.runtime floats))
    (hlast : (Item.expression last).IsSingle o (o.runtime floats))
    (h : Block.code o ⟨items ++ [.expression last], span⟩ = .ok code) :
    ∃ before final, itemsCode o items = .ok before ∧ last.code o = .ok final ∧
      (∀ m : Machine, m.run (o.runtime floats) code
        = m.run (o.runtime floats) before >>= Machine.run (o.runtime floats) final) ∧
      (∀ m m' : Machine, m.run (o.runtime floats) code = .ok m' →
        ∃ value earlier, BlockRun (o.runtime floats) before final (items.countP Item.isExpression)
            m m' value earlier ∧
          ((∃ v, m'.stack = v :: m.stack) ↔ ∀ i ∈ items, i.isExpression = false)) ∧
      ∀ (e : Expression) (operator : String) (span' : Option Span) (whole : List Instr),
        (Item.expression e).IsSingle o (o.runtime floats) →
        (Expression.binary e operator (.block ⟨items ++ [.expression last], span⟩) span').code o
          = .ok whole →
        ∃ first operation type, e.code o = .ok first ∧ operation? operator = some operation ∧
          ∀ m m' : Machine, m.run (o.runtime floats) whole = .ok m' →
            ∃ a value earlier, OperatorRun (o.runtime floats) first before final
                (items.countP Item.isExpression) operation type m m' a value earlier ∧
              ((∃ w, operation.onValues floats type a value = .ok w ∧ m'.stack = w :: m.stack)
                ↔ ∀ i ∈ items, i.isExpression = false) := by
  obtain ⟨before, final, hbefore, hfinal, rfl⟩ := Block.code_concat h
  have hadds : Adds (o.runtime floats) (items.countP Item.isExpression) before :=
    items_add items hitems hbefore
  have hvalue : Adds (o.runtime floats) 1 final := hlast final hfinal
  refine ⟨before, final, hbefore, hfinal, fun m => ?_, fun m m' hrun => ?_, ?_⟩
  · rw [Machine.run_block, Machine.run_append]
  · obtain ⟨value, earlier, hblock⟩ := hadds.blockRun hvalue hrun
    exact ⟨value, earlier, hblock, hblock.single_iff.trans countP_isExpression_eq_zero⟩
  · intro e operator span' whole he hwhole
    rw [Expression.code_binary] at hwhole
    obtain ⟨first, hfirst, hwhole⟩ := bind_eq_ok.1 hwhole
    obtain ⟨right, hright, hwhole⟩ := bind_eq_ok.1 hwhole
    rw [Operand.code, h] at hright
    cases hright
    obtain ⟨operation, type, hoperation, rfl⟩ := operatorCode_eq_ok hwhole
    refine ⟨first, operation, type, hfirst, hoperation, fun m m' hrun => ?_⟩
    obtain ⟨a, value, earlier, hoperator⟩ := (he first hfirst).operatorRun hadds hvalue hrun
    exact ⟨a, value, earlier, hoperator, hoperator.single_iff.trans countP_isExpression_eq_zero⟩

/-- `{ x = 3; x * 2 }` -/
def assignmentFirst : Block where
  items := [.statement (.assignment ⟨["x"], none⟩ (.operand (.literal (.int "3" .decimal none))) none),
    .expression (.binary (.operand (.path ⟨["x"], none⟩)) "*" (.literal (.int "2" .decimal none)) none)]
  span := none

/-- The block adds one value to every stack. -/
theorem assignmentFirst_stack : ∃ code, assignmentFirst.code {} = .ok code ∧
    ∀ (floats : FloatUnit) (m : Machine), ∃ m', m.run (Options.runtime {} floats) code = .ok m' ∧
      ∃ v, m'.stack = v :: m.stack := by
  refine ⟨_, rfl, fun floats m => ⟨_, rfl, ?_⟩⟩
  have hassignment : ∀ i ∈ assignmentFirst.items.take 1, i.IsSingle {} (Options.runtime {} floats) :=
    List.forall_mem_singleton.2 (Expression.isSingle (by decide) (by decide))
  obtain ⟨_, _, -, -, -, hstack, -⟩ := block_stack floats hassignment
    (Expression.isSingle (by decide) (by decide)) (show assignmentFirst.code {} = .ok _ from rfl)
  obtain ⟨_, _, -, hsingle⟩ := hstack m _ rfl
  exact hsingle.2 (by decide)

/-- `{ 5; 2 }` -/
def expressionFirst : Block where
  items := [.expression (.operand (.literal (.int "5" .decimal none))),
    .expression (.operand (.literal (.int "2" .decimal none)))]
  span := none

/-- Both items leave one value, and `1 + { 5; 2 }` adds the two of them: 1 stays under the sum. -/
theorem expressionFirst_stack : ∃ code,
    (Expression.binary (.operand (.literal (.int "1" .decimal none))) "+" (.block expressionFirst)
      none).code {} = .ok code ∧
    ∀ floats : FloatUnit,
      (∀ i ∈ expressionFirst.items, i.IsSingle {} (Options.runtime {} floats)) ∧
      ∀ m : Machine, ∃ m', m.run (Options.runtime {} floats) code = .ok m' ∧
        m'.stack = .word 7 :: .word 1 :: m.stack := by
  refine ⟨_, rfl, fun floats => ⟨List.forall_mem_cons.2 ⟨?_, List.forall_mem_singleton.2 ?_⟩,
    fun m => ⟨_, rfl, rfl⟩⟩⟩
  · exact Expression.isSingle (by decide) (by decide)
  · exact Expression.isSingle (by decide) (by decide)

end Chainlet
