import Chainlet.Proofs.Program.Spine
import Chainlet.Proofs.Tree.Sound

/-!
# Proofs/Program/Refused — which trees are refused, and what for

A step is a judge of a tree and a property if it gives a result exactly when the property holds, and if
whatever it refuses is a node of the tree (`Tree.Judges`).  Every part of a program that may be read off
a node is a judge of the node standing at its place and being sound (`Tree.Judged`): this is proved for
nodes from the same for their children, and so for all trees.  So **a tree is a program exactly if it
is sound, and if it is refused, then for one of its nodes** (`Program.ofTree_iff_sound`).
-/

namespace Chainlet

variable {α β : Type}

/-- A step that gives a result if and only if a tree has a property, and names a node of the tree
otherwise. -/
structure Tree.Judges (t : Tree) (P : Prop) (x : Built α) : Prop where
  succeeds_iff : Succeeds x ↔ P
  names : ∀ m, x = .error m → ∃ u ∈ t.nodes, u.rule = m.rule ∧ u.span = m.span

namespace Tree.Judges

variable {t u : Tree} {P Q : Prop} {x : Built α} {f : α → Built β}

/-- A property may be replaced by an equivalent one. -/
theorem congr (h : t.Judges P x) (hiff : P ↔ Q) : t.Judges Q x := ⟨h.succeeds_iff.trans hiff, h.names⟩

/-- A result is given if the property holds. -/
theorem ok {a : α} (h : P) : t.Judges P (.ok a : Built α) :=
  ⟨iff_of_true ⟨a, rfl⟩ h, fun _ hm => nomatch hm⟩

/-- The node itself is refused. -/
theorem refused {part : Part} (h : ¬P) : t.Judges P (t.malformed part : Built α) := by
  refine ⟨iff_of_false (fun ⟨_, hx⟩ => nomatch hx) h, fun m hm => ?_⟩
  cases hm
  exact ⟨t, t.mem_nodes_self, rfl, rfl⟩

/-- Two steps, one after the other. -/
theorem bind (hx : t.Judges P x) (hf : ∀ a, t.Judges Q (f a)) : t.Judges (P ∧ Q) (x >>= f) := by
  cases x with
  | error m =>
    refine ⟨iff_of_false (fun ⟨_, hb⟩ => nomatch hb) fun h => ?_, fun m' hm => ?_⟩
    · obtain ⟨a, ha⟩ := hx.succeeds_iff.2 h.1
      cases ha
    · cases hm
      exact hx.names m rfl
  | ok a =>
    have hP : P := hx.succeeds_iff.1 ⟨a, rfl⟩
    exact ⟨(hf a).succeeds_iff.trans (and_iff_right hP).symm, (hf a).names⟩

/-- A step and one that always gives a result. -/
theorem always (hx : t.Judges P x) (hf : ∀ a, Succeeds (f a)) : t.Judges P (x >>= f) :=
  (hx.bind fun a => (by
    obtain ⟨b, hb⟩ := hf a
    rw [hb]
    exact .ok trivial : t.Judges True (f a))).congr (and_iff_left trivial)

/-- What judges a child judges the node. -/
theorem within (h : u.Judges P x) (hu : u ∈ t.children) : t.Judges P x := by
  refine ⟨h.succeeds_iff, fun m hm => ?_⟩
  obtain ⟨v, hv, hnames⟩ := h.names m hm
  exact ⟨v, mem_nodes_of_mem_children hu hv, hnames⟩

/-- A list of parts, one after the other. -/
theorem mapM {build : Tree → Built α} {slot : Slot} {ts : List Tree}
    (h : ∀ u ∈ ts, t.Judges (slot.Accepts u) (build u)) :
    t.Judges (∀ u ∈ ts, slot.Accepts u) (ts.mapM build) := by
  induction ts with
  | nil => exact .ok (List.forall_mem_nil _)
  | cons u us ih =>
    rw [List.mapM_cons]
    obtain ⟨hfirst, hmore⟩ := List.forall_mem_cons.1 h
    refine (hfirst.bind fun a => (ih hmore).always fun as => ⟨a :: as, rfl⟩).congr ?_
    rw [List.forall_mem_cons]

/-! ### Nodes at their places -/

section Node

variable {slot : Slot} {slots : List Slot} {rule : Rule} {text : String} {start : Option Nat}
  {ts : List Tree}

/-- A node that may stand at a place is accepted there if it is sound. -/
theorem admitted (hslot : slot.admits t = true) (h : t.Judges (t.sound = true) x) :
    t.Judges (slot.Accepts t) x :=
  h.congr (and_iff_right hslot).symm

/-- A node that may not stand at a place is refused there. -/
theorem barred {part : Part} (hslot : slot.admits t = false) :
    t.Judges (slot.Accepts t) (t.malformed part : Built α) :=
  .refused fun h => Bool.false_ne_true (hslot.symm.trans h.1)

/-- A node with the children of its rule is judged by them. -/
theorem fixed (hlayout : rule.layout = .fixed slots)
    (h : (node rule text start ts).Judges (List.Forall₂ Slot.Accepts slots ts) x) :
    (node rule text start ts).Judges ((node rule text start ts).sound = true) x :=
  h.congr (sound_fixed hlayout).symm

/-- A node with one child is judged by that child. -/
theorem one (hlayout : rule.layout = .fixed [slot])
    (h : (node rule text start [u]).Judges (slot.Accepts u) x) :
    (node rule text start [u]).Judges ((node rule text start [u]).sound = true) x :=
  .fixed hlayout (h.congr (by simp))

/-- A node with two children is judged by both of them. -/
theorem two {slot' : Slot} {v : Tree} (hlayout : rule.layout = .fixed [slot, slot'])
    (h : (node rule text start [u, v]).Judges (slot.Accepts u ∧ slot'.Accepts v) x) :
    (node rule text start [u, v]).Judges ((node rule text start [u, v]).sound = true) x :=
  .fixed hlayout (h.congr (by simp))

/-- What judges a child judges the node. -/
theorem child (h : u.Judges P x) (hu : u ∈ ts) : (node rule text start ts).Judges P x := h.within hu

/-- A node with more or fewer children is refused. -/
theorem miscounted {part : Part} (hlayout : rule.layout = .fixed slots)
    (hlength : slots.length ≠ ts.length) : (node rule text start ts).Judges
      ((node rule text start ts).sound = true) ((node rule text start ts).malformed part : Built α) :=
  .fixed hlayout (.refused fun h => hlength h.length_eq)

end Node

end Tree.Judges

/-! ## Parts without expressions -/

namespace Tree

variable {t : Tree}

/-- A leaf that is read by its rule alone. -/
theorem textOf_judged {rule : Rule} (part : Part)
    (hsound : ∀ text start ts, (node rule text start ts).sound = true) (t : Tree) :
    t.Judges ((Slot.rule rule).Accepts t) (t.textOf rule part) := by
  obtain ⟨r, text, start, ts⟩ := t
  rw [textOf]
  split
  · next hrule =>
    obtain rfl : r = rule := hrule
    exact .ok ⟨beq_self_eq_true r, hsound text start ts⟩
  · next hrule => exact .barred (beq_eq_false_iff_ne.2 hrule)

/-- The text of a name is given for a name. -/
theorem nameText_judged (t : Tree) : t.Judges ((Slot.rule .name).Accepts t) t.nameText :=
  textOf_judged .name (fun _ _ _ => rfl) t

/-- The text of a keyword is given for a keyword. -/
theorem keywordText_judged (t : Tree) : t.Judges ((Slot.rule .keyword).Accepts t) t.keywordText :=
  textOf_judged .keyword (fun _ _ _ => rfl) t

/-- The names of a list are given if all children are names. -/
theorem names_judged : t.Judges (∀ u ∈ t.children, (Slot.rule .name).Accepts u)
    (t.children.mapM nameText) :=
  .mapM fun u hu => u.nameText_judged.within hu

/-- A part that may be missing. -/
theorem optional?_judged {build : Tree → Built α} {rule : Rule}
    (h : ∀ u ∈ t.children, u.Judges ((Slot.rule rule).Accepts u) (build u)) :
    t.Judges ((Slot.optional rule).Accepts t) (t.optional? build) := by
  obtain ⟨r, text, start, ts⟩ := t
  cases r
  case optional =>
    refine Judges.congr ?_ Slot.accepts_optional.symm
    match ts with
    | [] => exact .ok (.inl rfl)
    | [u] =>
      have hmem : u ∈ (node .optional text start [u]).children := List.mem_singleton_self u
      have hmap : (build u).map some = build u >>= fun a => .ok (some a) := by cases build u <;> rfl
      rw [optional?, hmap]
      exact (((h u hmem).within hmem).always fun a => ⟨some a, rfl⟩).congr (by simp)
    | _ :: _ :: _ => exact .refused (by simp)
  all_goals exact .barred rfl

end Tree

/-- A type annotation is built exactly from a sound node of one. -/
theorem TypeAscription.ofTree_judged (t : Tree) :
    t.Judges ((Slot.rule .typeAscription).Accepts t) (ofTree t) := by
  obtain ⟨rule, text, start, ts⟩ := t
  cases rule
  case typeAscription =>
    refine .admitted rfl ?_
    match ts with
    | [u] =>
      exact .one rfl ((u.nameText_judged.child (by simp)).always fun a => ⟨_, rfl⟩)
    | [] | _ :: _ :: _ => exact .miscounted rfl (by simp)
  all_goals exact .barred rfl

/-- A name with its type is built exactly from a sound node of one. -/
theorem TypedName.ofTree_judged (t : Tree) :
    t.Judges ((Slot.rule .typedName).Accepts t) (ofTree t) := by
  obtain ⟨rule, text, start, ts⟩ := t
  cases rule
  case typedName =>
    refine .admitted rfl ?_
    match ts with
    | [label, type] =>
      refine .two rfl ?_
      refine (label.nameText_judged.child (by simp)).bind fun a => ?_
      exact ((Tree.optional?_judged fun u _ => TypeAscription.ofTree_judged u).child
        (by simp : type ∈ [label, type])).always fun b => ⟨_, rfl⟩
    | [] | [_] | _ :: _ :: _ :: _ => exact .miscounted rfl (by simp)
  all_goals exact .barred rfl

/-- Type parameters are built exactly from a sound node of them. -/
theorem Generics.ofTree_judged (t : Tree) :
    t.Judges ((Slot.rule .generics).Accepts t) (ofTree t) := by
  obtain ⟨rule, text, start, ts⟩ := t
  cases rule
  case generics =>
    refine .admitted rfl (.congr ?_ (Tree.sound_many rfl).symm)
    exact Tree.names_judged.always fun a => ⟨_, rfl⟩
  all_goals exact .barred rfl

/-- A path is built exactly from a sound node of one. -/
theorem Path.ofTree_judged (t : Tree) : t.Judges ((Slot.rule .path).Accepts t) (ofTree t) := by
  obtain ⟨rule, text, start, ts⟩ := t
  cases rule
  case path =>
    refine .admitted rfl (.congr ?_ (Tree.sound_some rfl).symm)
    cases ts with
    | nil => exact .refused fun h => h.1 rfl
    | cons u us =>
      have hnames : (Tree.node .path text start (u :: us)).Judges
          (∀ v ∈ u :: us, (Slot.rule .name).Accepts v) ((u :: us).mapM Tree.nameText) :=
        Tree.names_judged
      exact (hnames.always fun a => ⟨_, rfl⟩).congr (by simp)
  all_goals exact .barred rfl

/-- A comment is built exactly from a sound node of one. -/
theorem DocComment.ofTree_judged (t : Tree) :
    t.Judges ((Slot.rule .docComment).Accepts t) (ofTree t) := by
  obtain ⟨rule, text, start, ts⟩ := t
  cases rule
  case docComment => exact .admitted rfl (.ok rfl)
  all_goals exact .barred rfl

/-- A word that stands for a value, if there is one. -/
theorem Literal.ofWord_judged {t : Tree} (hword : t.rule.isToken = true) :
    t.Judges ((Slot.category .literal).Accepts t) (ofWord t) := by
  obtain ⟨rule, text, start, ts⟩ := t
  cases rule
  case stringLiteral =>
    refine .admitted rfl ?_
    rw [Tree.sound_token rfl, ofWord]
    dsimp only [Tree.hasValue, Tree.rule, Tree.text]
    split
    · next content hcontent => exact .ok (by rw [hcontent]; rfl)
    · next hnone => exact .refused (by rw [hnone]; exact Bool.false_ne_true)
  case floatLiteral =>
    refine .admitted rfl ?_
    rw [Tree.sound_token rfl, ofWord]
    dsimp only [Tree.hasValue, Tree.rule, Tree.text]
    split
    · next value hvalue => exact .ok (by rw [hvalue]; rfl)
    · next hnone => exact .refused (by rw [hnone]; exact Bool.false_ne_true)
  case booleanLiteral =>
    refine .admitted rfl ?_
    rw [Tree.sound_token rfl]
    by_cases htrue : text = "@true"
    · subst htrue
      exact .ok rfl
    · by_cases hfalse : text = "@false"
      · subst hfalse
        exact .ok rfl
      · have hread : ofWord (.node .booleanLiteral text start ts) = _ :=
          (if_neg htrue).trans (if_neg hfalse)
        rw [hread]
        exact .refused fun h => ((Bool.or_eq_true ..).mp h).elim
          (fun h => htrue (beq_iff_eq.1 h)) (fun h => hfalse (beq_iff_eq.1 h))
  case decimalLiteral | binaryLiteral | hexLiteral | octalLiteral => exact .admitted rfl (.ok rfl)
  all_goals first | exact .barred rfl | cases hword

/-! ## Parts with expressions -/

/-- What may be read off a node is a judge of it at its place. -/
structure Tree.Judged (t : Tree) : Prop where
  expression : t.Judges ((Slot.category .expression).Accepts t) (Expression.ofTree t)
  call : ∀ span, t.Judges ((Slot.category .call).Accepts t) (Call.ofTree t span)
  arguments : t.Judges ((Slot.rule .arguments).Accepts t) (argumentsOfTree t)
  operand : t.Judges ((Slot.category .operand).Accepts t) (Operand.ofTree t)
  block : t.Judges ((Slot.rule .block).Accepts t) (Block.ofTree t)
  literal : t.Judges ((Slot.category .literal).Accepts t) (Literal.ofTree t)
  field : t.Judges ((Slot.rule .field).Accepts t) (Field.ofTree t)
  item : t.Judges ((Slot.category .item).Accepts t) (Item.ofTree t)
  statement : t.Judges ((Slot.category .statement).Accepts t) (Statement.ofTree t)
  assignment : t.Judges ((Slot.rule .assignment).Accepts t) (assignmentOfTree t)
  definition : t.Judges ((Slot.rule .definition).Accepts t) (Definition.ofTree t)
  parameters : t.Judges ((Slot.rule .parameters).Accepts t) (parametersOfTree t)
  parameter : t.Judges ((Slot.category .parameter).Accepts t) (Parameter.ofTree t)
  bindingPart : t.Judges ((Slot.optional .binding).Accepts t) (bindingOfTree? t)
  binding : t.Judges ((Slot.rule .binding).Accepts t) (Binding.ofTree t)

section Nodes

variable {rule : Rule} {text : String} {start : Option Nat} {ts : List Tree}

/-- An expression is built exactly from a sound node of one, if this is so of the children. -/
theorem Expression.ofTree_judged (hts : ∀ u ∈ ts, u.Judged) :
    (Tree.node rule text start ts).Judges
      ((Slot.category .expression).Accepts (.node rule text start ts))
      (ofTree (.node rule text start ts)) := by
  cases rule
  case binaryExpression =>
    refine .admitted rfl ?_
    match ts with
    | [left, operator, right] =>
      refine .fixed rfl ?_
      rw [ofTree_binary]
      simp only [List.forall₂_cons, List.Forall₂.nil, and_true]
      refine ((hts left (by simp)).expression.child (by simp)).bind fun e => ?_
      refine ((operator.textOf_judged .operator fun _ _ _ => rfl).child (by simp)).bind fun sign => ?_
      exact ((hts right (by simp)).operand.child (by simp)).always fun value => ⟨_, rfl⟩
    | [] | [_] | [_, _] | _ :: _ :: _ :: _ :: _ => exact .miscounted rfl (by simp)
  case callExpression =>
    refine .admitted rfl ?_
    match ts with
    | [c] =>
      rw [ofTree_call]
      exact .one rfl ((((hts c (by simp)).call _).child (by simp)).always fun a => ⟨_, rfl⟩)
    | [] | _ :: _ :: _ => exact .miscounted rfl (by simp)
  case operandExpression =>
    refine .admitted rfl ?_
    match ts with
    | [v] =>
      rw [ofTree_operand]
      exact .one rfl (((hts v (by simp)).operand.child (by simp)).always fun a => ⟨_, rfl⟩)
    | [] | _ :: _ :: _ => exact .miscounted rfl (by simp)
  all_goals exact .barred rfl

/-- The children of a node that are expressions, one by one. -/
theorem expressionsOfTrees_judged (hts : ∀ u ∈ ts, u.Judged) :
    (Tree.node rule text start ts).Judges (∀ u ∈ ts, (Slot.category .expression).Accepts u)
      (expressionsOfTrees ts) := by
  rw [expressionsOfTrees_eq_mapM]
  exact .mapM fun u hu => (hts u hu).expression.child hu

/-- A call is built exactly from a sound node of one, if this is so of the children. -/
theorem Call.ofTree_judged (hts : ∀ u ∈ ts, u.Judged) (span : Span) :
    (Tree.node rule text start ts).Judges ((Slot.category .call).Accepts (.node rule text start ts))
      (ofTree (.node rule text start ts) span) := by
  cases rule
  case builtinCall =>
    refine .admitted rfl ?_
    match ts with
    | [callee, arguments] =>
      refine .two rfl (.congr ?_ and_comm)
      refine ((hts arguments (by simp)).arguments.child (by simp)).bind fun es => ?_
      exact (callee.keywordText_judged.child (by simp)).always fun k => ⟨_, rfl⟩
    | [] | [_] | _ :: _ :: _ :: _ => exact .miscounted rfl (by simp)
  case userCall =>
    refine .admitted rfl ?_
    match ts with
    | [callee, arguments] =>
      refine .two rfl (.congr ?_ and_comm)
      refine ((hts arguments (by simp)).arguments.child (by simp)).bind fun es => ?_
      exact ((Path.ofTree_judged callee).child (by simp)).always fun p => ⟨_, rfl⟩
    | [] | [_] | _ :: _ :: _ :: _ => exact .miscounted rfl (by simp)
  all_goals exact .barred rfl

/-- Arguments are built exactly from a sound list of them. -/
theorem argumentsOfTree_judged (hts : ∀ u ∈ ts, u.Judged) :
    (Tree.node rule text start ts).Judges ((Slot.rule .arguments).Accepts (.node rule text start ts))
      (argumentsOfTree (.node rule text start ts)) := by
  cases rule
  case arguments =>
    exact .admitted rfl ((expressionsOfTrees_judged hts).congr (Tree.sound_many rfl).symm)
  all_goals exact .barred rfl

/-- An operand is built exactly from a sound node of one of its kinds. -/
theorem Operand.ofTree_judged (hts : ∀ u ∈ ts, u.Judged) :
    (Tree.node rule text start ts).Judges
      ((Slot.category .operand).Accepts (.node rule text start ts))
      (ofTree (.node rule text start ts)) := by
  cases rule
  case literalOperand =>
    refine .admitted rfl ?_
    match ts with
    | [u] => exact .one rfl (((hts u (by simp)).literal.child (by simp)).always fun a => ⟨_, rfl⟩)
    | [] | _ :: _ :: _ => exact .miscounted rfl (by simp)
  case pathOperand =>
    refine .admitted rfl ?_
    match ts with
    | [u] => exact .one rfl (((Path.ofTree_judged u).child (by simp)).always fun a => ⟨_, rfl⟩)
    | [] | _ :: _ :: _ => exact .miscounted rfl (by simp)
  case blockOperand =>
    refine .admitted rfl ?_
    match ts with
    | [u] => exact .one rfl (((hts u (by simp)).block.child (by simp)).always fun a => ⟨_, rfl⟩)
    | [] | _ :: _ :: _ => exact .miscounted rfl (by simp)
  case groupOperand =>
    refine .admitted rfl ?_
    match ts with
    | [u] => exact .one rfl (((hts u (by simp)).expression.child (by simp)).always fun a => ⟨_, rfl⟩)
    | [] | _ :: _ :: _ => exact .miscounted rfl (by simp)
  all_goals exact .barred rfl

theorem Block.ofTree_judged (hts : ∀ u ∈ ts, u.Judged) :
    (Tree.node rule text start ts).Judges ((Slot.rule .block).Accepts (.node rule text start ts))
      (ofTree (.node rule text start ts)) := by
  cases rule
  case block =>
    refine .admitted rfl (.congr ?_ (Tree.sound_many rfl).symm)
    rw [ofTree, itemsOfTrees_eq_mapM]
    exact (Tree.Judges.mapM fun u hu => (hts u hu).item.child hu).always fun a => ⟨_, rfl⟩
  all_goals exact .barred rfl

/-- A literal is built exactly from a sound node of one of its kinds. -/
theorem Literal.ofTree_judged (hts : ∀ u ∈ ts, u.Judged) :
    (Tree.node rule text start ts).Judges
      ((Slot.category .literal).Accepts (.node rule text start ts))
      (ofTree (.node rule text start ts)) := by
  cases rule
  case arrayLiteral | tupleLiteral =>
    refine .admitted rfl (.congr ?_ (Tree.sound_many rfl).symm)
    exact (expressionsOfTrees_judged hts).always fun a => ⟨_, rfl⟩
  case objectLiteral =>
    refine .admitted rfl (.congr ?_ (Tree.sound_many rfl).symm)
    rw [ofTree, fieldsOfTrees_eq_mapM]
    exact (Tree.Judges.mapM fun u hu => (hts u hu).field.child hu).always fun a => ⟨_, rfl⟩
  all_goals first | exact ofWord_judged rfl | exact .barred rfl

theorem Field.ofTree_judged (hts : ∀ u ∈ ts, u.Judged) :
    (Tree.node rule text start ts).Judges ((Slot.rule .field).Accepts (.node rule text start ts))
      (ofTree (.node rule text start ts)) := by
  cases rule
  case field =>
    refine .admitted rfl ?_
    match ts with
    | [key, value] =>
      refine .two rfl ?_
      refine ((TypedName.ofTree_judged key).child (by simp)).bind fun n => ?_
      exact ((hts value (by simp)).expression.child (by simp)).always fun e => ⟨_, rfl⟩
    | [] | [_] | _ :: _ :: _ :: _ => exact .miscounted rfl (by simp)
  all_goals exact .barred rfl

theorem Item.ofTree_judged (hts : ∀ u ∈ ts, u.Judged) :
    (Tree.node rule text start ts).Judges ((Slot.category .item).Accepts (.node rule text start ts))
      (ofTree (.node rule text start ts)) := by
  cases rule
  case statementItem =>
    refine .admitted rfl ?_
    match ts with
    | [u] => exact .one rfl (((hts u (by simp)).statement.child (by simp)).always fun a => ⟨_, rfl⟩)
    | [] | _ :: _ :: _ => exact .miscounted rfl (by simp)
  case expressionItem =>
    refine .admitted rfl ?_
    match ts with
    | [u] => exact .one rfl (((hts u (by simp)).expression.child (by simp)).always fun a => ⟨_, rfl⟩)
    | [] | _ :: _ :: _ => exact .miscounted rfl (by simp)
  all_goals exact .barred rfl

theorem Statement.ofTree_judged (hts : ∀ u ∈ ts, u.Judged) :
    (Tree.node rule text start ts).Judges
      ((Slot.category .statement).Accepts (.node rule text start ts))
      (ofTree (.node rule text start ts)) := by
  cases rule
  case assignmentStatement =>
    refine .admitted rfl ?_
    match ts with
    | [u] => exact .one rfl ((hts u (by simp)).assignment.child (by simp))
    | [] | _ :: _ :: _ => exact .miscounted rfl (by simp)
  case definitionStatement =>
    refine .admitted rfl ?_
    match ts with
    | [u] =>
      exact .one rfl (((hts u (by simp)).definition.child (by simp)).always fun a => ⟨_, rfl⟩)
    | [] | _ :: _ :: _ => exact .miscounted rfl (by simp)
  all_goals exact .barred rfl

theorem assignmentOfTree_judged (hts : ∀ u ∈ ts, u.Judged) :
    (Tree.node rule text start ts).Judges ((Slot.rule .assignment).Accepts (.node rule text start ts))
      (assignmentOfTree (.node rule text start ts)) := by
  cases rule
  case assignment =>
    refine .admitted rfl ?_
    match ts with
    | [target, value] =>
      refine .two rfl ?_
      refine ((Path.ofTree_judged target).child (by simp)).bind fun p => ?_
      exact ((hts value (by simp)).expression.child (by simp)).always fun e => ⟨_, rfl⟩
    | [] | [_] | _ :: _ :: _ :: _ => exact .miscounted rfl (by simp)
  all_goals exact .barred rfl

/-- A definition is built exactly if all five of its parts can be. -/
theorem Definition.ofTree_judged (hts : ∀ u ∈ ts, u.Judged) :
    (Tree.node rule text start ts).Judges ((Slot.rule .definition).Accepts (.node rule text start ts))
      (ofTree (.node rule text start ts)) := by
  cases rule
  case definition =>
    refine .admitted rfl ?_
    match ts with
    | [word, label, types, inputs, body] =>
      refine .fixed rfl ?_
      simp only [List.forall₂_cons, List.Forall₂.nil, and_true]
      refine (word.keywordText_judged.child (by simp)).bind fun k => ?_
      refine ((TypedName.ofTree_judged label).child (by simp)).bind fun n => ?_
      refine ((Tree.optional?_judged fun u _ => Generics.ofTree_judged u).child
        (by simp : types ∈ _)).bind fun g => ?_
      refine ((hts inputs (by simp)).parameters.child (by simp)).bind fun ps => ?_
      exact ((hts body (by simp)).bindingPart.child (by simp)).always fun b => ⟨_, rfl⟩
    | [] | [_] | [_, _] | [_, _, _] | [_, _, _, _] | _ :: _ :: _ :: _ :: _ :: _ :: _ =>
      exact .miscounted rfl (by simp)
  all_goals exact .barred rfl

theorem parametersOfTree_judged (hts : ∀ u ∈ ts, u.Judged) :
    (Tree.node rule text start ts).Judges ((Slot.rule .parameters).Accepts (.node rule text start ts))
      (parametersOfTree (.node rule text start ts)) := by
  cases rule
  case parameters =>
    refine .admitted rfl (.congr ?_ (Tree.sound_many rfl).symm)
    rw [parametersOfTree, parametersOfTrees_eq_mapM]
    exact .mapM fun u hu => (hts u hu).parameter.child hu
  all_goals exact .barred rfl

theorem Parameter.ofTree_judged (hts : ∀ u ∈ ts, u.Judged) :
    (Tree.node rule text start ts).Judges
      ((Slot.category .parameter).Accepts (.node rule text start ts))
      (ofTree (.node rule text start ts)) := by
  cases rule
  case namedParameter =>
    refine .admitted rfl ?_
    match ts with
    | [u] => exact .one rfl (((TypedName.ofTree_judged u).child (by simp)).always fun a => ⟨_, rfl⟩)
    | [] | _ :: _ :: _ => exact .miscounted rfl (by simp)
  case literalParameter =>
    refine .admitted rfl ?_
    match ts with
    | [u] => exact .one rfl (((hts u (by simp)).literal.child (by simp)).always fun a => ⟨_, rfl⟩)
    | [] | _ :: _ :: _ => exact .miscounted rfl (by simp)
  all_goals exact .barred rfl

/-- A body is built like every part that may be missing. -/
theorem bindingOfTree?_eq (t : Tree) : bindingOfTree? t = t.optional? Binding.ofTree := by
  rw [bindingOfTree?.eq_def, Tree.optional?.eq_def]
  split
  · rfl
  · next u => cases Binding.ofTree u <;> rfl
  · rfl

/-- A body that may be missing is built exactly from a sound node of one. -/
theorem bindingOfTree?_judged (hts : ∀ u ∈ ts, u.Judged) :
    (Tree.node rule text start ts).Judges ((Slot.optional .binding).Accepts (.node rule text start ts))
      (bindingOfTree? (.node rule text start ts)) := by
  rw [bindingOfTree?_eq]
  exact Tree.optional?_judged fun u hu => (hts u hu).binding

/-- A body is kept as it is or as a group, whatever expression it is. -/
theorem Binding.ofTree_judged (hts : ∀ u ∈ ts, u.Judged) :
    (Tree.node rule text start ts).Judges ((Slot.rule .binding).Accepts (.node rule text start ts))
      (ofTree (.node rule text start ts)) := by
  cases rule
  case binding =>
    refine .admitted rfl ?_
    match ts with
    | [u] =>
      refine .one rfl (((hts u (by simp)).expression.child (by simp)).always fun e => ?_)
      cases e <;> exact ⟨_, rfl⟩
    | [] | _ :: _ :: _ => exact .miscounted rfl (by simp)
  all_goals exact .barred rfl

end Nodes

/-! ## Trees -/

/-- **Whatever may be read off a node is read if and only if the node is sound at its place.** -/
theorem Tree.judged (t : Tree) : t.Judged := by
  induction t using Tree.induction with
  | h rule text start ts hts =>
    exact {
      expression := Expression.ofTree_judged hts
      call := Call.ofTree_judged hts
      arguments := argumentsOfTree_judged hts
      operand := Operand.ofTree_judged hts
      block := Block.ofTree_judged hts
      literal := Literal.ofTree_judged hts
      field := Field.ofTree_judged hts
      item := Item.ofTree_judged hts
      statement := Statement.ofTree_judged hts
      assignment := assignmentOfTree_judged hts
      definition := Definition.ofTree_judged hts
      parameters := parametersOfTree_judged hts
      parameter := Parameter.ofTree_judged hts
      bindingPart := bindingOfTree?_judged hts
      binding := Binding.ofTree_judged hts }

/-- An element of a program is built exactly from a sound node of one. -/
theorem Element.ofTree_judged (t : Tree) :
    t.Judges ((Slot.category .element).Accepts t) (ofTree t) := by
  obtain ⟨rule, text, start, ts⟩ := t
  cases rule
  case itemElement =>
    refine .admitted rfl ?_
    match ts with
    | [u] => exact .one rfl ((u.judged.item.child (by simp)).always fun a => ⟨_, rfl⟩)
    | [] | _ :: _ :: _ => exact .miscounted rfl (by simp)
  case docElement =>
    refine .admitted rfl ?_
    match ts with
    | [u] => exact .one rfl (((DocComment.ofTree_judged u).child (by simp)).always fun a => ⟨_, rfl⟩)
    | [] | _ :: _ :: _ => exact .miscounted rfl (by simp)
  all_goals exact .barred rfl

/-- A program is built exactly from a sound tree. -/
theorem Program.ofTree_judges (t : Tree) :
    t.Judges ((Slot.rule .program).Accepts t) (ofTree t) := by
  obtain ⟨rule, text, start, ts⟩ := t
  cases rule
  case program =>
    refine .admitted rfl (.congr ?_ (Tree.sound_many rfl).symm)
    exact (Tree.Judges.mapM fun u hu => (Element.ofTree_judged u).child hu).always fun a => ⟨_, rfl⟩
  all_goals exact .barred rfl

/-- **Which trees are programs, and what the others are refused for.**  A tree is a program exactly if
its root is one and it is sound; it is refused for the rule and the span of one of its nodes; and what it
may have besides the children of its rules hangs below its tokens. -/
theorem Program.ofTree_iff_sound (t : Tree) :
    (Succeeds (Program.ofTree t) ↔ t.rule = .program ∧ t.sound = true) ∧
    (∀ m, Program.ofTree t = .error m → ∃ u ∈ t.nodes, u.rule = m.rule ∧ u.span = m.span) ∧
    (Succeeds (Program.ofTree t) → ((∀ u ∈ t.nodes, u.laidOut = true) ↔
      ∀ u ∈ t.nodes, u.rule.isToken = true → u.children = [])) := by
  obtain ⟨hiff, hnames⟩ := Program.ofTree_judges t
  rw [Slot.Accepts, Slot.admits, beq_iff_eq] at hiff
  exact ⟨hiff, hnames, fun h => Tree.laidOut_iff_of_sound (hiff.1 h).2⟩

/-- `7;`, with a leaf of a rule for the digit and with what hangs below that leaf. -/
def digitTree (leaf : Rule) (below : List Tree) : Tree :=
  .node .program "7;" (some 0) [.node .itemElement "7;" (some 0)
    [.node .expressionItem "7" (some 0) [.node .operandExpression "7" (some 0)
      [.node .literalOperand "7" (some 0) [.node leaf "7" (some 0) below]]]]]

/-- As a number the digit is accepted and as a name it is refused. -/
theorem digitTree_judged :
    (∀ u ∈ (digitTree .decimalLiteral []).nodes, u.laidOut = true) ∧
      ∃ u ∈ (digitTree .name []).nodes, u.rule = .name ∧ u.span = ⟨0, 1⟩ := by
  refine ⟨((Program.ofTree_iff_sound _).2.2 ⟨_, rfl⟩).2 ?_,
    (Program.ofTree_iff_sound _).2.1 ⟨.name, .literal, ⟨0, 1⟩⟩ rfl⟩
  simp [digitTree, Tree.nodes, Tree.nodesAll, Tree.rule, Tree.children, Rule.isToken, Rule.form?]

/-- A name below a number is neither read nor refused. -/
theorem digitTree_accepted :
    (∃ p, Program.ofTree (digitTree .decimalLiteral [.node .name "7" (some 0) []]) = .ok p) ∧
      ∃ u ∈ (digitTree .decimalLiteral [.node .name "7" (some 0) []]).nodes, u.laidOut = false :=
  ⟨⟨_, rfl⟩, .node .decimalLiteral "7" (some 0) [.node .name "7" (some 0) []],
    by simp [digitTree, Tree.nodes, Tree.nodesAll], rfl⟩

end Chainlet
