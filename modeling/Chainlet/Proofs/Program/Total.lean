import Chainlet.Program.OfSource
import Chainlet.Proofs.Grammar.Sound
import Chainlet.Proofs.Program.Corresponds

/-!
# Proofs/Program/Total — a tree that conforms is a program

No node of a tree with the layouts and forms of its rules is refused, and trees that correspond are
built to the same program but for the spans (`Program.ofTree_agree`).  `Tree.Builds` collects what the
builder makes of two nodes by their rule; it is proved for nodes from the same for their children, and
so for all trees.  With the soundness of the grammar, **what can be read can be built**
(`Program.ofTree_ofSource`), and the errors of reading a program are those of reading its tree.
-/

namespace Chainlet

/-- What the builder makes of two nodes by their rule. -/
structure Tree.Builds (f g : Span → Option Span) (t t' : Tree) : Prop extends Tree.Twins f g t t' where
  expression : t.rule.category = .expression →
    Agree (Expression.mapSpans f) (Expression.mapSpans g) (Expression.ofTree t) (Expression.ofTree t')
  call : t.rule.category = .call → ∀ span span', f span = g span' →
    Agree (Call.mapSpans f) (Call.mapSpans g) (Call.ofTree t span) (Call.ofTree t' span')
  arguments : t.rule = .arguments → Agree (List.map (Expression.mapSpans f))
    (List.map (Expression.mapSpans g)) (argumentsOfTree t) (argumentsOfTree t')
  operand : t.rule.category = .operand →
    Agree (Operand.mapSpans f) (Operand.mapSpans g) (Operand.ofTree t) (Operand.ofTree t')
  block : t.rule = .block →
    Agree (Block.mapSpans f) (Block.mapSpans g) (Block.ofTree t) (Block.ofTree t')
  literal : t.rule.category = .literal →
    Agree (Literal.mapSpans f) (Literal.mapSpans g) (Literal.ofTree t) (Literal.ofTree t')
  field : t.rule = .field →
    Agree (Field.mapSpans f) (Field.mapSpans g) (Field.ofTree t) (Field.ofTree t')
  item : t.rule.category = .item →
    Agree (Item.mapSpans f) (Item.mapSpans g) (Item.ofTree t) (Item.ofTree t')
  statement : t.rule.category = .statement →
    Agree (Statement.mapSpans f) (Statement.mapSpans g) (Statement.ofTree t) (Statement.ofTree t')
  assignment : t.rule = .assignment →
    Agree (Statement.mapSpans f) (Statement.mapSpans g) (assignmentOfTree t) (assignmentOfTree t')
  definition : t.rule = .definition →
    Agree (Definition.mapSpans f) (Definition.mapSpans g) (Definition.ofTree t) (Definition.ofTree t')
  parameters : t.rule = .parameters → Agree (List.map (Parameter.mapSpans f))
    (List.map (Parameter.mapSpans g)) (parametersOfTree t) (parametersOfTree t')
  parameter : t.rule.category = .parameter →
    Agree (Parameter.mapSpans f) (Parameter.mapSpans g) (Parameter.ofTree t) (Parameter.ofTree t')
  bindingPart : (Slot.optional .binding).admits t = true → Agree (Option.map (Binding.mapSpans f))
    (Option.map (Binding.mapSpans g)) (bindingOfTree? t) (bindingOfTree? t')
  binding : t.rule = .binding →
    Agree (Binding.mapSpans f) (Binding.mapSpans g) (Binding.ofTree t) (Binding.ofTree t')

/-! ## Nodes from their children -/

section Nodes

variable {f g : Span → Option Span} {rule : Rule} {text text' : String} {start start' : Option Nat}
  {ts ts' : List Tree}

/-- Expressions are built alike if this is so of their parts. -/
theorem Expression.ofTree_agree (hcategory : rule.category = .expression)
    (hspan : f (Tree.node rule text start ts).span = g (Tree.node rule text' start' ts').span)
    (hlayout : rule.layout.admits ts = true) (hts : List.Forall₂ (Tree.Builds f g) ts ts') :
    Agree (mapSpans f) (mapSpans g) (ofTree (.node rule text start ts))
      (ofTree (.node rule text' start' ts')) := by
  cases rule
  case binaryExpression =>
    obtain ⟨left, _, left', _, rfl, rfl, hleft, hl, hlayout, hts⟩ := slots_cons hlayout hts
    obtain ⟨operator, right, operator', right', rfl, rfl, hoperator, hright, ho, hr⟩ :=
      slots_two hlayout hts
    rw [ofTree_binary, ofTree_binary]
    refine (hl.expression (beq_iff_eq.1 hleft)).bind fun a a' ha => ?_
    refine (Tree.textOf_agree rfl hoperator ho.corresponds).bind fun b b' hb => ?_
    refine (hr.operand (beq_iff_eq.1 hright)).bind fun v v' hv => agree_ok ?_
    obtain rfl : b = b' := hb
    simp [mapSpans, ha, hv, hspan]
  case callExpression =>
    obtain ⟨c, c', rfl, rfl, hc, hbuilds⟩ := slots_one hlayout hts
    rw [ofTree, ofTree, ofSpine, ofSpine]
    refine (hbuilds.call (beq_iff_eq.1 hc) _ _ hspan).bind fun a a' ha => agree_ok ?_
    rw [mapSpans, mapSpans, ha]
  case operandExpression =>
    obtain ⟨v, v', rfl, rfl, hv, hbuilds⟩ := slots_one hlayout hts
    rw [ofTree, ofTree, ofSpine, ofSpine]
    refine (hbuilds.operand (beq_iff_eq.1 hv)).bind fun a a' ha => agree_ok ?_
    rw [mapSpans, mapSpans, ha]
  all_goals cases hcategory

/-- Lists of expressions are built alike if their members are. -/
theorem expressionsOfTrees_agree (h : ts.all (Slot.category .expression).admits = true)
    (hts : List.Forall₂ (Tree.Builds f g) ts ts') : Agree (List.map (Expression.mapSpans f))
      (List.map (Expression.mapSpans g)) (expressionsOfTrees ts) (expressionsOfTrees ts') := by
  rw [expressionsOfTrees_eq_mapM, expressionsOfTrees_eq_mapM]
  exact agree_mapM (slots_all h hts fun _ _ hslot ht => ht.expression (beq_iff_eq.1 hslot))

/-- Calls are built alike if this is so of their functions and arguments. -/
theorem Call.ofTree_agree (hcategory : rule.category = .call)
    (hlayout : rule.layout.admits ts = true) (hts : List.Forall₂ (Tree.Builds f g) ts ts')
    {span span' : Span} (hspan : f span = g span') :
    Agree (mapSpans f) (mapSpans g) (ofTree (.node rule text start ts) span)
      (ofTree (.node rule text' start' ts') span') := by
  cases rule
  case builtinCall =>
    obtain ⟨callee, arguments, callee', arguments', rfl, rfl, hcallee, harguments, hc, ha⟩ :=
      slots_two hlayout hts
    rw [ofTree, ofTree]
    refine (ha.arguments (beq_iff_eq.1 harguments)).bind fun es es' hes => ?_
    refine (Tree.textOf_agree rfl hcallee hc.corresponds).bind fun k k' hk => agree_ok ?_
    obtain rfl : k = k' := hk
    simp [mapSpans, Callee.mapSpans, hes, hspan]
  case userCall =>
    obtain ⟨callee, arguments, callee', arguments', rfl, rfl, hcallee, harguments, hc, ha⟩ :=
      slots_two hlayout hts
    rw [ofTree, ofTree]
    refine (ha.arguments (beq_iff_eq.1 harguments)).bind fun es es' hes => ?_
    refine (Path.ofTree_agree hcallee hc.toTwins).bind fun p p' hp => agree_ok ?_
    simp [mapSpans, Callee.mapSpans, hes, hp, hspan]
  all_goals cases hcategory

/-- Operands are built alike if this is so of what they hold. -/
theorem Operand.ofTree_agree (hcategory : rule.category = .operand)
    (hlayout : rule.layout.admits ts = true) (hts : List.Forall₂ (Tree.Builds f g) ts ts') :
    Agree (mapSpans f) (mapSpans g) (ofTree (.node rule text start ts))
      (ofTree (.node rule text' start' ts')) := by
  cases rule
  case literalOperand =>
    obtain ⟨v, v', rfl, rfl, hv, hbuilds⟩ := slots_one hlayout hts
    rw [ofTree, ofTree]
    refine (hbuilds.literal (beq_iff_eq.1 hv)).bind fun a a' ha => agree_ok ?_
    rw [mapSpans, mapSpans, ha]
  case pathOperand =>
    obtain ⟨p, p', rfl, rfl, hp, hbuilds⟩ := slots_one hlayout hts
    rw [ofTree, ofTree]
    refine (Path.ofTree_agree hp hbuilds.toTwins).bind fun a a' ha => agree_ok ?_
    rw [mapSpans, mapSpans, ha]
  case blockOperand =>
    obtain ⟨b, b', rfl, rfl, hb, hbuilds⟩ := slots_one hlayout hts
    rw [ofTree, ofTree]
    refine (hbuilds.block (beq_iff_eq.1 hb)).bind fun a a' ha => agree_ok ?_
    rw [mapSpans, mapSpans, ha]
  case groupOperand =>
    obtain ⟨e, e', rfl, rfl, he, hbuilds⟩ := slots_one hlayout hts
    rw [ofTree, ofTree]
    refine (hbuilds.expression (beq_iff_eq.1 he)).bind fun a a' ha => agree_ok ?_
    rw [mapSpans, mapSpans, ha]
  all_goals cases hcategory

/-- Literals are built alike: words by their texts, lists by their elements. -/
theorem Literal.ofTree_agree
    (h : (Tree.node rule text start ts).Twins f g (.node rule text' start' ts'))
    (hcategory : rule.category = .literal) (hts : List.Forall₂ (Tree.Builds f g) ts ts') :
    Agree (mapSpans f) (mapSpans g) (ofTree (.node rule text start ts))
      (ofTree (.node rule text' start' ts')) := by
  obtain ⟨hlayout, -, -⟩ := Tree.conforms_iff.1 h.conforms
  have hspan : f (Tree.node rule text start ts).span = g (Tree.node rule text' start' ts').span := by
    cases h.corresponds with
    | node _ hspan _ => exact hspan
  cases rule
  case arrayLiteral =>
    rw [ofTree, ofTree]
    refine (expressionsOfTrees_agree hlayout hts).bind fun es es' hes => agree_ok ?_
    simp [mapSpans, hes, hspan]
  case tupleLiteral =>
    rw [ofTree, ofTree]
    refine (expressionsOfTrees_agree hlayout hts).bind fun es es' hes => agree_ok ?_
    simp [mapSpans, hes, hspan]
  case objectLiteral =>
    rw [ofTree, ofTree, fieldsOfTrees_eq_mapM, fieldsOfTrees_eq_mapM]
    refine (agree_mapM (slots_all hlayout hts fun _ _ hslot ht =>
      ht.field (beq_iff_eq.1 hslot))).bind fun xs xs' hxs => agree_ok ?_
    simp [mapSpans, hxs, hspan]
  -- the rules of words are those with a form; any other rule is of another category
  all_goals first
    | exact ofWord_agree rfl rfl h
    | cases hcategory

theorem Block.ofTree_agree
    (hspan : f (Tree.node .block text start ts).span = g (Tree.node .block text' start' ts').span)
    (hlayout : Rule.block.layout.admits ts = true) (hts : List.Forall₂ (Tree.Builds f g) ts ts') :
    Agree (mapSpans f) (mapSpans g) (ofTree (.node .block text start ts))
      (ofTree (.node .block text' start' ts')) := by
  rw [ofTree, ofTree, itemsOfTrees_eq_mapM, itemsOfTrees_eq_mapM]
  refine (agree_mapM (slots_all hlayout hts fun _ _ hslot ht =>
    ht.item (beq_iff_eq.1 hslot))).bind fun is is' his => agree_ok ?_
  simp [mapSpans, his, hspan]

theorem Field.ofTree_agree
    (hspan : f (Tree.node .field text start ts).span = g (Tree.node .field text' start' ts').span)
    (hlayout : Rule.field.layout.admits ts = true) (hts : List.Forall₂ (Tree.Builds f g) ts ts') :
    Agree (mapSpans f) (mapSpans g) (ofTree (.node .field text start ts))
      (ofTree (.node .field text' start' ts')) := by
  obtain ⟨key, value, key', value', rfl, rfl, hkey, hvalue, hk, hv⟩ := slots_two hlayout hts
  rw [ofTree, ofTree]
  refine (TypedName.ofTree_agree hkey hk.toTwins).bind fun n n' hn => ?_
  refine (hv.expression (beq_iff_eq.1 hvalue)).bind fun e e' he => agree_ok ?_
  simp [mapSpans, hn, he, hspan]

theorem Item.ofTree_agree (hcategory : rule.category = .item)
    (hlayout : rule.layout.admits ts = true) (hts : List.Forall₂ (Tree.Builds f g) ts ts') :
    Agree (mapSpans f) (mapSpans g) (ofTree (.node rule text start ts))
      (ofTree (.node rule text' start' ts')) := by
  cases rule
  case statementItem =>
    obtain ⟨t, t', rfl, rfl, ht, hbuilds⟩ := slots_one hlayout hts
    rw [ofTree, ofTree]
    refine (hbuilds.statement (beq_iff_eq.1 ht)).bind fun a a' ha => agree_ok ?_
    rw [mapSpans, mapSpans, ha]
  case expressionItem =>
    obtain ⟨t, t', rfl, rfl, ht, hbuilds⟩ := slots_one hlayout hts
    rw [ofTree, ofTree]
    refine (hbuilds.expression (beq_iff_eq.1 ht)).bind fun a a' ha => agree_ok ?_
    rw [mapSpans, mapSpans, ha]
  all_goals cases hcategory

theorem Statement.ofTree_agree (hcategory : rule.category = .statement)
    (hlayout : rule.layout.admits ts = true) (hts : List.Forall₂ (Tree.Builds f g) ts ts') :
    Agree (mapSpans f) (mapSpans g) (ofTree (.node rule text start ts))
      (ofTree (.node rule text' start' ts')) := by
  cases rule
  case assignmentStatement =>
    obtain ⟨t, t', rfl, rfl, ht, hbuilds⟩ := slots_one hlayout hts
    rw [ofTree, ofTree]
    exact hbuilds.assignment (beq_iff_eq.1 ht)
  case definitionStatement =>
    obtain ⟨t, t', rfl, rfl, ht, hbuilds⟩ := slots_one hlayout hts
    rw [ofTree, ofTree]
    refine (hbuilds.definition (beq_iff_eq.1 ht)).bind fun a a' ha => agree_ok ?_
    rw [mapSpans, mapSpans, ha]
  all_goals cases hcategory

theorem assignmentOfTree_agree
    (hspan : f (Tree.node .assignment text start ts).span
      = g (Tree.node .assignment text' start' ts').span)
    (hlayout : Rule.assignment.layout.admits ts = true)
    (hts : List.Forall₂ (Tree.Builds f g) ts ts') :
    Agree (Statement.mapSpans f) (Statement.mapSpans g)
      (assignmentOfTree (.node .assignment text start ts))
      (assignmentOfTree (.node .assignment text' start' ts')) := by
  obtain ⟨target, value, target', value', rfl, rfl, htarget, hvalue, hp, hv⟩ := slots_two hlayout hts
  rw [assignmentOfTree, assignmentOfTree]
  refine (Path.ofTree_agree htarget hp.toTwins).bind fun p p' hp => ?_
  refine (hv.expression (beq_iff_eq.1 hvalue)).bind fun e e' he => agree_ok ?_
  simp [Statement.mapSpans, hp, he, hspan]

/-- Definitions are built alike if this is so of all five parts. -/
theorem Definition.ofTree_agree
    (hspan : f (Tree.node .definition text start ts).span
      = g (Tree.node .definition text' start' ts').span)
    (hlayout : Rule.definition.layout.admits ts = true)
    (hts : List.Forall₂ (Tree.Builds f g) ts ts') :
    Agree (mapSpans f) (mapSpans g) (ofTree (.node .definition text start ts))
      (ofTree (.node .definition text' start' ts')) := by
  obtain ⟨word, _, word', _, rfl, rfl, hword, hw, hlayout, hts⟩ := slots_cons hlayout hts
  obtain ⟨label, _, label', _, rfl, rfl, hlabel, hl, hlayout, hts⟩ := slots_cons hlayout hts
  obtain ⟨types, _, types', _, rfl, rfl, htypes, ht, hlayout, hts⟩ := slots_cons hlayout hts
  obtain ⟨inputs, body, inputs', body', rfl, rfl, hinputs, hbody, hi, hb⟩ := slots_two hlayout hts
  rw [ofTree, ofTree]
  refine (Tree.textOf_agree rfl hword hw.corresponds).bind fun k k' hk => ?_
  refine (TypedName.ofTree_agree hlabel hl.toTwins).bind fun n n' hn => ?_
  refine (Tree.optional?_agree ht.toTwins htypes fun _ _ => Generics.ofTree_agree).bind
    fun a a' ha => ?_
  refine (hi.parameters (beq_iff_eq.1 hinputs)).bind fun ps ps' hps => ?_
  refine (hb.bindingPart hbody).bind fun b b' hb => agree_ok ?_
  obtain rfl : k = k' := hk
  simp [mapSpans, hn, ha, hps, hb, hspan]

theorem parametersOfTree_agree (hlayout : Rule.parameters.layout.admits ts = true)
    (hts : List.Forall₂ (Tree.Builds f g) ts ts') :
    Agree (List.map (Parameter.mapSpans f)) (List.map (Parameter.mapSpans g))
      (parametersOfTree (.node .parameters text start ts))
      (parametersOfTree (.node .parameters text' start' ts')) := by
  rw [parametersOfTree, parametersOfTree, parametersOfTrees_eq_mapM, parametersOfTrees_eq_mapM]
  exact agree_mapM (slots_all hlayout hts fun _ _ hslot ht => ht.parameter (beq_iff_eq.1 hslot))

theorem Parameter.ofTree_agree (hcategory : rule.category = .parameter)
    (hlayout : rule.layout.admits ts = true) (hts : List.Forall₂ (Tree.Builds f g) ts ts') :
    Agree (mapSpans f) (mapSpans g) (ofTree (.node rule text start ts))
      (ofTree (.node rule text' start' ts')) := by
  cases rule
  case namedParameter =>
    obtain ⟨t, t', rfl, rfl, ht, hbuilds⟩ := slots_one hlayout hts
    rw [ofTree, ofTree]
    refine (TypedName.ofTree_agree ht hbuilds.toTwins).bind fun a a' ha => agree_ok ?_
    rw [mapSpans, mapSpans, ha]
  case literalParameter =>
    obtain ⟨t, t', rfl, rfl, ht, hbuilds⟩ := slots_one hlayout hts
    rw [ofTree, ofTree]
    refine (hbuilds.literal (beq_iff_eq.1 ht)).bind fun a a' ha => agree_ok ?_
    rw [mapSpans, mapSpans, ha]
  all_goals cases hcategory

/-- Bodies that may be missing are built alike, or missing on both sides. -/
theorem bindingOfTree?_agree (hlayout : Rule.optional.layout.admits ts = true)
    (hslot : (Slot.optional .binding).admits (.node .optional text start ts) = true)
    (hts : List.Forall₂ (Tree.Builds f g) ts ts') :
    Agree (Option.map (Binding.mapSpans f)) (Option.map (Binding.mapSpans g))
      (bindingOfTree? (.node .optional text start ts))
      (bindingOfTree? (.node .optional text' start' ts')) := by
  rw [Slot.admits, Bool.and_eq_true, List.all_eq_true] at hslot
  have hlength : ts.length ≤ 1 := of_decide_eq_true hlayout
  cases hts with
  | nil => exact agree_ok rfl
  | @cons t t' us us' ht htail =>
    obtain rfl : us = [] := List.length_eq_zero_iff.1 (Nat.le_zero.1 (Nat.le_of_succ_le_succ hlength))
    cases htail
    rw [bindingOfTree?, bindingOfTree?]
    have hrule : t.rule = .binding := beq_iff_eq.1 (hslot.2 t (List.mem_singleton.2 rfl))
    exact (ht.binding hrule).bind fun b b' hb => agree_ok (congrArg some hb)

theorem Binding.ofTree_agree
    (hspan : f (Tree.node .binding text start ts).span
      = g (Tree.node .binding text' start' ts').span)
    (hlayout : Rule.binding.layout.admits ts = true) (hts : List.Forall₂ (Tree.Builds f g) ts ts') :
    Agree (mapSpans f) (mapSpans g) (ofTree (.node .binding text start ts))
      (ofTree (.node .binding text' start' ts')) := by
  obtain ⟨t, t', rfl, rfl, ht, hbuilds⟩ := slots_one hlayout hts
  rw [ofTree, ofTree]
  refine (hbuilds.expression (beq_iff_eq.1 ht)).bind fun e e' he => ?_
  have hgroup : (Operand.group e).mapSpans f = (Operand.group e').mapSpans g := by
    rw [Operand.mapSpans, Operand.mapSpans, he]
  -- either both of the expressions are operands or none is
  cases e <;> cases e' <;> simp only [Expression.mapSpans, reduceCtorEq] at he
  case operand.operand v v' =>
    exact agree_ok (by simp [mapSpans, Expression.operand.inj he, hspan])
  all_goals exact agree_ok (by simp only [mapSpans, hgroup, hspan, Option.bind_some])

end Nodes

/-! ## Trees -/

/-- **Every node of a tree that conforms is built as its twin is.** -/
theorem Tree.builds {f g : Span → Option Span} (t : Tree) :
    ∀ t', t.Twins f g t' → t.Builds f g t' := by
  induction t using Tree.induction with
  | h rule text start ts ih =>
    intro t' h
    obtain ⟨text, start, ts, text', start', ts', heq, rfl, hspan, hlayout, hchildren⟩ := h.node rfl
    cases heq
    have hts : List.Forall₂ (Builds f g) ts ts' :=
      ((List.forall₂_and_left ts ts').2 ⟨ih, hchildren⟩).imp fun _ _ ht => ht.1 _ ht.2
    exact {
      toTwins := h
      expression := fun hcategory => Expression.ofTree_agree hcategory hspan hlayout hts
      call := fun hcategory _ _ => Call.ofTree_agree hcategory hlayout hts
      arguments := by
        rintro rfl
        exact expressionsOfTrees_agree hlayout hts
      operand := fun hcategory => Operand.ofTree_agree hcategory hlayout hts
      block := by
        rintro rfl
        exact Block.ofTree_agree hspan hlayout hts
      literal := fun hcategory => Literal.ofTree_agree h hcategory hts
      field := by
        rintro rfl
        exact Field.ofTree_agree hspan hlayout hts
      item := fun hcategory => Item.ofTree_agree hcategory hlayout hts
      statement := fun hcategory => Statement.ofTree_agree hcategory hlayout hts
      assignment := by
        rintro rfl
        exact assignmentOfTree_agree hspan hlayout hts
      definition := by
        rintro rfl
        exact Definition.ofTree_agree hspan hlayout hts
      parameters := by
        rintro rfl
        exact parametersOfTree_agree hlayout hts
      parameter := fun hcategory => Parameter.ofTree_agree hcategory hlayout hts
      bindingPart := fun hslot => by
        obtain rfl : rule = .optional := beq_iff_eq.1 ((Bool.and_eq_true ..).mp hslot).1
        exact bindingOfTree?_agree hlayout hslot hts
      binding := by
        rintro rfl
        exact Binding.ofTree_agree hspan hlayout hts }

/-! ## Programs -/

section Programs

variable {f g : Span → Option Span} {t t' : Tree}

/-- Elements of twins are built alike, but for their spans. -/
theorem Element.ofTree_agree (hcategory : t.rule.category = .element) (h : t.Twins f g t') :
    Agree (mapSpans f) (mapSpans g) (ofTree t) (ofTree t') := by
  generalize hrule : t.rule = rule at hcategory
  obtain ⟨text, start, ts, text', start', ts', rfl, rfl, -, hlayout, hts⟩ := h.node hrule
  cases rule
  case itemElement =>
    obtain ⟨t, t', rfl, rfl, ht, htwins⟩ := slots_one hlayout hts
    rw [ofTree, ofTree]
    refine ((t.builds t' htwins).item (beq_iff_eq.1 ht)).bind fun i i' hi => agree_ok ?_
    rw [mapSpans, mapSpans, hi]
  case docElement =>
    obtain ⟨t, t', rfl, rfl, ht, htwins⟩ := slots_one hlayout hts
    rw [ofTree, ofTree]
    refine (DocComment.ofTree_agree ht htwins).bind fun d d' hd => agree_ok ?_
    rw [mapSpans, mapSpans, hd]
  all_goals cases hcategory

/-- The elements of twins are built alike one by one. -/
theorem elements_agree {ts ts' : List Tree} (h : ts.all (Slot.category .element).admits = true)
    (hts : List.Forall₂ (Tree.Twins f g) ts ts') :
    Agree (List.map (Element.mapSpans f)) (List.map (Element.mapSpans g)) (ts.mapM Element.ofTree)
      (ts'.mapM Element.ofTree) :=
  agree_mapM (slots_all h hts fun _ _ hslot ht => Element.ofTree_agree (beq_iff_eq.1 hslot) ht)

/-- **Trees of the same words are the same program but for the spans.** -/
theorem Program.ofTree_agree (hrule : t.rule = .program) (h : t.Twins f g t') :
    Agree (mapSpans f) (mapSpans g) (ofTree t) (ofTree t') := by
  obtain ⟨text, start, ts, text', start', ts', rfl, rfl, hspan, hlayout, hts⟩ := h.node hrule
  rw [ofTree, ofTree]
  refine (elements_agree hlayout hts).bind fun es es' hes => agree_ok ?_
  simp [mapSpans, hes, hspan]

end Programs

/-- A tree corresponds to itself. -/
theorem Tree.corresponds_refl (f : Span → Option Span) (t : Tree) : t.Corresponds f f t := by
  induction t using Tree.induction with
  | h rule text start ts ih => exact .node (fun _ => rfl) rfl (List.forall₂_same.2 ih)

/-- **A tree that conforms is a program.** -/
theorem Program.ofTree_succeeds {t : Tree} (hrule : t.rule = .program) (h : t.conforms = true) :
    Succeeds (Program.ofTree t) :=
  (Program.ofTree_agree hrule ⟨h, t.corresponds_refl noSpan⟩).succeeds

/-- **What can be read can be built.** -/
theorem Program.ofTree_ofSource {source : String} {tree : Tree}
    (h : Tree.ofSource source = .ok tree) : Succeeds (Program.ofTree tree) := by
  refine Program.ofTree_succeeds ?_ (Tree.ofSource_conforms h)
  obtain ⟨text, start, ts, stop, rfl, -, -⟩ := Tree.ofSource_eq_ok h
  rfl

/-- The program of a source is that of its tree. -/
theorem Program.ofSource_eq_ok {source : String} {p : Program} :
    ofSource source = .ok p ↔ ∃ tree, Tree.ofSource source = .ok tree ∧ ofTree tree = .ok p := by
  rw [ofSource, bind_eq_ok]
  simp only [mapError_eq_ok]

/-- **The grammar and the builder agree on every source.**  A tree that was read has the children and
the words of its rules all the way down, and it is built to the program of the source; and where no
tree can be read, that and nothing else is why there is no program. -/
theorem Program.ofSource_agrees (source : String) :
    match Tree.ofSource source with
    | .ok tree => tree.conforms = true ∧
        ∃ p, Program.ofTree tree = .ok p ∧ Program.ofSource source = .ok p
    | .error u => Program.ofSource source = .error (.unreadable u) := by
  rw [ofSource]
  cases h : Tree.ofSource source with
  | ok tree =>
    obtain ⟨p, hp⟩ := Program.ofTree_ofSource h
    refine ⟨Tree.ofSource_conforms h, p, hp, ?_⟩
    change (Program.ofTree tree).mapError ReadError.malformed = .ok p
    rw [hp]
    rfl
  | error u => rfl

end Chainlet
