import Chainlet.Proofs.Code.Promotion
import Chainlet.Proofs.Program.Corresponds

/-!
# Proofs/Program/Spine — the walk down a spine is plain recursion

`Expression.recursiveOfTree` reads a chain as its rule is written: the left part as an expression, then
the operator, then the operand behind it.  The walk that sets operands aside on its way down reads the
same expression off every node, and refuses the same nodes for the same reason: a spine is put together
from the bottom, so the fault that it meets first is the one of the recursion, however many others there
are further up (`Expression.ofTree_recursive`).

The nodes of a chain and the operators of its expression are then the same list (`KeepsLevels`): each
operator has its own word, its own operand and the span of its own node.
-/

namespace Chainlet

/-! ## Plain recursion -/

/-- The expression of a node, by recursion on the first child of a binary one. -/
def Expression.recursiveOfTree : Tree → Built Expression
  | node@(.node .binaryExpression _ _ [left, operator, right]) => do
    let e ← Expression.recursiveOfTree left
    let sign ← operator.textOf .operator .operator
    let value ← Operand.ofTree right
    pure (.binary e sign value node.span)
  | node@(.node .callExpression _ _ [t]) => return .call (← Call.ofTree t node.span)
  | .node .operandExpression _ _ [t] => return .operand (← Operand.ofTree t)
  | t =>
    match t.rule with
    | .binaryExpression => t.malformed .binaryOperation
    | .callExpression => t.malformed .call
    | .operandExpression => t.malformed .operand
    | _ => t.malformed .expression

theorem Expression.ofTree_call (text : String) (start : Option Nat) (t : Tree) :
    Expression.ofTree (.node .callExpression text start [t]) =
      Call.ofTree t (Tree.node .callExpression text start [t]).span >>= fun c => .ok (.call c) := by
  rw [ofTree, ofSpine]
  rfl

theorem Expression.ofTree_operand (text : String) (start : Option Nat) (t : Tree) :
    Expression.ofTree (.node .operandExpression text start [t]) =
      Operand.ofTree t >>= fun v => .ok (.operand v) := by
  rw [ofTree, ofSpine]
  rfl

/-- **The walk down a spine is the recursion.** -/
theorem Expression.ofTree_eq_recursiveOfTree (t : Tree) :
    Expression.ofTree t = Expression.recursiveOfTree t := by
  induction t using Tree.induction with
  | h rule text start ts ih =>
    cases rule
    case binaryExpression =>
      match ts, ih with
      | [left, operator, right], ih =>
        rw [ofTree_binary, recursiveOfTree, ih left (by simp)]
      | [], _ => rfl
      | [_], _ => rfl
      | [_, _], _ => rfl
      | _ :: _ :: _ :: _ :: _, _ => rfl
    case callExpression =>
      match ts with
      | [c] => rw [ofTree, ofSpine, recursiveOfTree]; rfl
      | [] => rfl
      | _ :: _ :: _ => rfl
    case operandExpression =>
      match ts with
      | [v] => rw [ofTree, ofSpine, recursiveOfTree]; rfl
      | [] => rfl
      | _ :: _ :: _ => rfl
    all_goals rfl

/-! ## Levels -/

/-- A node of a chain with its operator and what stands behind it. -/
structure Tree.Level where
  node : Tree
  operator : Tree
  right : Tree

/-- The node at the bottom of a spine. -/
def Tree.bottom : Tree → Tree
  | .node .binaryExpression _ _ [left, _, _] => left.bottom
  | t => t

/-- The nodes of a spine above its bottom, from the bottom upwards. -/
def Tree.levels : Tree → List Tree.Level
  | node@(.node .binaryExpression _ _ [left, operator, right]) =>
    left.levels ++ [⟨node, operator, right⟩]
  | _ => []

/-- An operator of a chain with what it was built with. -/
structure Expression.Level where
  operator : String
  right : Operand
  span : Option Span

/-- The operators of a chain from the left. -/
def Expression.levels : Expression → List Expression.Level
  | .binary left operator right span => left.levels ++ [⟨operator, right, span⟩]
  | _ => []

/-- The operator at a level has the word, the operand and the span of the node at that level. -/
structure Tree.Level.Builds (level : Tree.Level) (built : Expression.Level) : Prop where
  operator_rule : level.operator.rule = .operator
  operator_eq : built.operator = level.operator.text
  right_eq : Operand.ofTree level.right = .ok built.right
  span_eq : built.span = level.node.span

/-- An expression with the levels of a spine, each at its place, on top of what stands at its bottom. -/
structure KeepsLevels (t : Tree) (e : Expression) : Prop where
  head : Expression.ofTree t.bottom = .ok e.head
  levels : List.Forall₂ Tree.Level.Builds t.levels e.levels

/-- What is wrong at a level: its operator, or the operand behind an operator that is one. -/
def Tree.Level.Refuses (level : Tree.Level) (m : Malformed) : Prop :=
  level.operator.textOf .operator .operator = .error m ∨
    level.operator.rule = .operator ∧ Operand.ofTree level.right = .error m

/-- The fault of a spine is at its bottom, or at a level with no fault below it. -/
def Tree.FirstFault (t : Tree) (m : Malformed) : Prop :=
  Expression.ofTree t.bottom = .error m ∨
    ∃ e below level above, Expression.ofTree t.bottom = .ok e ∧
      t.levels = below ++ level :: above ∧
      (∀ l ∈ below, ∃ built, l.Builds built) ∧ level.Refuses m

theorem Tree.textOf_eq_ok {rule : Rule} {expected : Part} {t : Tree} {word : String} :
    t.textOf rule expected = .ok word ↔ t.rule = rule ∧ t.text = word := by
  rw [textOf]
  split
  · next hrule => simp [hrule]
  · next hrule => simp [hrule, malformed]

/-- A node that is no chain: it has no levels, and neither has an expression that is read off it. -/
structure Tree.Single (t : Tree) : Prop where
  bottom_eq : t.bottom = t
  levels_eq : t.levels = []
  head_eq : ∀ e, Expression.ofTree t = .ok e → e.head = e
  levels_of_eq : ∀ e, Expression.ofTree t = .ok e → e.levels = []

/-- A call or an operand, if it can be read at all. -/
theorem Tree.single_of_read {t : Tree} {α : Type} {x : Built α} {f : α → Expression}
    (hbottom : t.bottom = t) (hlevels : t.levels = [])
    (hread : Expression.ofTree t = x >>= fun a => .ok (f a))
    (hf : ∀ a, (f a).head = f a ∧ (f a).levels = []) : t.Single := by
  have hbuilt : ∀ e, Expression.ofTree t = .ok e → e.head = e ∧ e.levels = [] := fun e he => by
    rw [hread] at he
    obtain ⟨a, -, ha⟩ := bind_eq_ok.1 he
    obtain rfl := Except.ok.inj ha
    exact hf a
  exact ⟨hbottom, hlevels, fun e he => (hbuilt e he).1, fun e he => (hbuilt e he).2⟩

theorem Tree.single_of_refused {t : Tree} {m : Malformed} (hbottom : t.bottom = t)
    (hlevels : t.levels = []) (hread : Expression.ofTree t = .error m) : t.Single :=
  have hnone : ∀ e, Expression.ofTree t ≠ .ok e := fun _ he => nomatch hread.symm.trans he
  ⟨hbottom, hlevels, fun e he => absurd he (hnone e), fun e he => absurd he (hnone e)⟩

/-- **Induction along a spine**: a node is a chain of a left part, an operator and what stands behind
it, or it is no chain. -/
theorem Tree.spine_induction {P : Tree → Prop} (single : ∀ t, t.Single → P t)
    (binary : ∀ text start left operator right, P left →
      P (.node .binaryExpression text start [left, operator, right])) (t : Tree) : P t := by
  induction t using Tree.induction with
  | h rule text start ts ih =>
    cases rule
    case binaryExpression =>
      match ts, ih with
      | [left, operator, right], ih => exact binary text start left operator right (ih left (by simp))
      | [], _ => exact single _ (single_of_refused rfl rfl rfl)
      | [_], _ => exact single _ (single_of_refused rfl rfl rfl)
      | [_, _], _ => exact single _ (single_of_refused rfl rfl rfl)
      | _ :: _ :: _ :: _ :: _, _ => exact single _ (single_of_refused rfl rfl rfl)
    case callExpression =>
      refine single _ ?_
      match ts with
      | [c] =>
        exact single_of_read (bottom.eq_def _) rfl (Expression.ofTree_call ..) fun _ => ⟨rfl, rfl⟩
      | [] => exact single_of_refused rfl rfl rfl
      | _ :: _ :: _ => exact single_of_refused rfl rfl rfl
    case operandExpression =>
      refine single _ ?_
      match ts with
      | [v] => exact single_of_read rfl rfl (Expression.ofTree_operand ..) fun _ => ⟨rfl, rfl⟩
      | [] => exact single_of_refused rfl rfl rfl
      | _ :: _ :: _ => exact single_of_refused rfl rfl rfl
    all_goals exact single _ (single_of_refused rfl rfl rfl)

theorem Tree.Level.exists_builds {ls : List Tree.Level} {bs : List Expression.Level}
    (h : List.Forall₂ Builds ls bs) : ∀ l ∈ ls, ∃ b, l.Builds b := by
  induction h with
  | nil => exact fun l hl => nomatch hl
  | cons hfirst _ ih => exact List.forall_mem_cons.2 ⟨⟨_, hfirst⟩, ih⟩

/-- The levels of a spine are the operators of what is read off it. -/
theorem Expression.keepsLevels {t : Tree} {e : Expression} (h : Expression.ofTree t = .ok e) :
    KeepsLevels t e := by
  induction t using Tree.spine_induction generalizing e with
  | single t ht =>
    refine ⟨?_, ?_⟩
    · rw [ht.bottom_eq, ht.head_eq e h, h]
    · rw [ht.levels_eq, ht.levels_of_eq e h]
      exact .nil
  | binary text start left operator right ih =>
    rw [ofTree_binary] at h
    obtain ⟨e', hleft, h⟩ := bind_eq_ok.1 h
    obtain ⟨word, hword, h⟩ := bind_eq_ok.1 h
    obtain ⟨value, hvalue, h⟩ := bind_eq_ok.1 h
    obtain rfl := Except.ok.inj h
    obtain ⟨hrule, rfl⟩ := Tree.textOf_eq_ok.1 hword
    obtain ⟨hhead, hlevels⟩ := ih hleft
    refine ⟨?_, ?_⟩
    · rw [Tree.bottom, head, hhead]
    · rw [Tree.levels, levels]
      exact List.rel_append hlevels (.cons ⟨hrule, rfl, hvalue, rfl⟩ .nil)

/-- The fault of a chain is that of its left part, or that of its last level if there is none. -/
theorem Expression.firstFault {t : Tree} {m : Malformed} (h : Expression.ofTree t = .error m) :
    t.FirstFault m := by
  induction t using Tree.spine_induction with
  | single t ht => exact .inl (ht.bottom_eq.symm ▸ h)
  | binary text start left operator right ih =>
    rw [ofTree_binary] at h
    rw [Tree.FirstFault, Tree.bottom, Tree.levels]
    obtain hleft | ⟨e, hleft, h⟩ := bind_eq_error.1 h
    · obtain hhead | ⟨e, below, level, above, hhead, hlevels, hbelow, hfault⟩ := ih hleft
      · exact .inl hhead
      · rw [hlevels, List.append_assoc, List.cons_append]
        exact .inr ⟨e, below, level, _, hhead, rfl, hbelow, hfault⟩
    · obtain ⟨hhead, hlevels⟩ := keepsLevels hleft
      refine .inr ⟨e.head, left.levels, _, [], hhead, rfl, Tree.Level.exists_builds hlevels, ?_⟩
      obtain hword | ⟨word, hword, h⟩ := bind_eq_error.1 h
      · exact .inl hword
      · obtain hvalue | ⟨value, -, h⟩ := bind_eq_error.1 h
        · exact .inr ⟨(Tree.textOf_eq_ok.1 hword).1, hvalue⟩
        · cases h

/-- **The walk down a spine is plain recursion, on every tree.** -/
theorem Expression.ofTree_recursive (t : Tree) :
    Expression.ofTree t = Expression.recursiveOfTree t ∧
    (∀ e, Expression.ofTree t = .ok e → KeepsLevels t e) ∧
    ∀ m, Expression.ofTree t = .error m → t.FirstFault m :=
  ⟨ofTree_eq_recursiveOfTree t, fun _ => keepsLevels, fun _ => firstFault⟩

/-- A number where an operand stands. -/
def numberTree (word : String) (start : Nat) : Tree :=
  .node .literalOperand word (some start) [.node .decimalLiteral word (some start) []]

/-- `2 + 3 * 4`, with what stands in front of the multiplication sign and with that sign given. -/
def threeOperandTree (sum : List Tree) (sign : Rule) : Tree :=
  .node .binaryExpression "2 + 3 * 4" (some 0)
    [.node .binaryExpression "2 + 3" (some 0)
      (.node .operandExpression "2" (some 0) [numberTree "2" 0] :: sum),
     .node sign "*" (some 6) [], numberTree "4" 8]

/-- Both operators keep their own operands and spans, and the sum is the left part of the product.
Without its operand the sum is what is at fault, even if the sign of the product is none either. -/
theorem threeOperandTree_levels :
    (∃ e, KeepsLevels
        (threeOperandTree [.node .operator "+" (some 2) [], numberTree "3" 4] .operator) e ∧
      e.levels = [⟨"+", .literal (.int "3" .decimal (some ⟨4, 5⟩)), some ⟨0, 5⟩⟩,
        ⟨"*", .literal (.int "4" .decimal (some ⟨8, 9⟩)), some ⟨0, 9⟩⟩]) ∧
    (threeOperandTree [.node .operator "+" (some 2) []] .name).FirstFault
      ⟨.binaryExpression, .binaryOperation, ⟨0, 5⟩⟩ :=
  ⟨⟨_, (Expression.ofTree_recursive _).2.1 _ rfl, rfl⟩, (Expression.ofTree_recursive _).2.2 _ rfl⟩

end Chainlet
