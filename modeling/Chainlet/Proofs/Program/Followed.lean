import Chainlet.Program.OfSource
import Chainlet.Proofs.Grammar.Innermost
import Chainlet.Proofs.Outline.Built
import Chainlet.Proofs.Program.Spine

/-!
# Proofs/Program/Followed — what is followed in a program is followed in its tree

An expression is followed by something if it is the left part of an operator, or an element of a list
that is not the last one; `Program.followed` collects these at any depth.  What is built from a node is
followed only where its tree has something behind it (`Tree.KeepsFollowed`), and takes arguments only if
the node does.  Since no call with arguments is followed in a tree that was read from a source, **none
is followed in a program** (`Program.ofSource_followed`): an operator or a comma behind it is its own.
-/

namespace Chainlet

/-! ## Followed expressions -/

mutual

/-- The expressions at any depth that an operator follows, or a comma with another element. -/
def Expression.followed : Expression → List Expression
  | .binary left _ right _ => left :: (left.followed ++ right.followed)
  | .call c => c.followed
  | .operand v => v.followed

/-- In a call, a comma follows all arguments but the last. -/
def Call.followed : Call → List Expression
  | ⟨_, arguments, _⟩ => arguments.dropLast ++ expressionsFollowed arguments

/-- An operand is followed by nothing itself; what is followed stands inside it. -/
def Operand.followed : Operand → List Expression
  | .literal v => v.followed
  | .path _ => []
  | .block b => b.followed
  | .group inner => inner.followed

/-- The items of a block end with their semicolons, so only what stands inside them is followed. -/
def Block.followed : Block → List Expression
  | ⟨items, _⟩ => itemsFollowed items

/-- In a literal, a comma follows all elements, or all values of fields, but the last. -/
def Literal.followed : Literal → List Expression
  | .array elements _ | .tuple elements _ => elements.dropLast ++ expressionsFollowed elements
  | .object fields _ => fields.dropLast.map Field.value ++ fieldsFollowed fields
  | _ => []

/-- What is followed in the value of a field. -/
def Field.followed : Field → List Expression
  | ⟨_, value, _⟩ => value.followed

/-- What is followed in a statement or an expression. -/
def Item.followed : Item → List Expression
  | .statement s => s.followed
  | .expression e => e.followed

/-- What is followed in an assigned value or in a definition. -/
def Statement.followed : Statement → List Expression
  | .assignment _ value _ => value.followed
  | .definition d => d.followed

/-- What is followed in the parameters and in the body of a definition. -/
def Definition.followed : Definition → List Expression
  | ⟨_, _, _, parameters, binding, _⟩ => parametersFollowed parameters ++ bindingFollowed binding

/-- What is followed in a parameter: a name holds no expression. -/
def Parameter.followed : Parameter → List Expression
  | .named _ => []
  | .pattern v => v.followed

/-- What is followed in the body of a definition. -/
def Binding.followed : Binding → List Expression
  | ⟨body, _⟩ => body.followed

/-- What is followed in a body that may be missing. -/
def bindingFollowed : Option Binding → List Expression
  | none => []
  | some b => b.followed

/-- What is followed inside the expressions of a list, whatever their places in it. -/
def expressionsFollowed : List Expression → List Expression
  | [] => []
  | e :: es => e.followed ++ expressionsFollowed es

/-- What is followed inside the fields of a list. -/
def fieldsFollowed : List Field → List Expression
  | [] => []
  | x :: xs => x.followed ++ fieldsFollowed xs

/-- What is followed inside the items of a list. -/
def itemsFollowed : List Item → List Expression
  | [] => []
  | i :: is => i.followed ++ itemsFollowed is

/-- What is followed inside the parameters of a list. -/
def parametersFollowed : List Parameter → List Expression
  | [] => []
  | p :: ps => p.followed ++ parametersFollowed ps

end

/-- What is followed in an element of a program: a comment holds no expression. -/
def Element.followed : Element → List Expression
  | .item i => i.followed
  | .docComment _ => []

/-- **The expressions in a program that something follows.** -/
def Program.followed (p : Program) : List Expression := p.elements.flatMap Element.followed

/-- Whether an expression is a call with arguments. -/
def Expression.takesArguments : Expression → Bool
  | .call c => !c.arguments.isEmpty
  | _ => false

/-! ### Lists -/

theorem expressionsFollowed_eq (es : List Expression) :
    expressionsFollowed es = es.flatMap Expression.followed := by
  induction es with
  | nil => rfl
  | cons e es ih => rw [expressionsFollowed, List.flatMap_cons, ih]

theorem fieldsFollowed_eq (xs : List Field) : fieldsFollowed xs = xs.flatMap Field.followed := by
  induction xs with
  | nil => rfl
  | cons x xs ih => rw [fieldsFollowed, List.flatMap_cons, ih]

theorem itemsFollowed_eq (is : List Item) : itemsFollowed is = is.flatMap Item.followed := by
  induction is with
  | nil => rfl
  | cons i is ih => rw [itemsFollowed, List.flatMap_cons, ih]

theorem parametersFollowed_eq (ps : List Parameter) :
    parametersFollowed ps = ps.flatMap Parameter.followed := by
  induction ps with
  | nil => rfl
  | cons p ps ih => rw [parametersFollowed, List.flatMap_cons, ih]

/-! ## What is followed in trees -/

/-- Whether an expression is read off a node of a tree that something follows. -/
def Tree.HasFollowed (t : Tree) (e : Expression) : Prop :=
  ∃ u ∈ t.nodes, ∃ v ∈ u.followed, Expression.ofTree v = .ok e

/-- Whatever is followed in a part that is built is followed in a tree. -/
def Tree.Passes {α : Type} (t : Tree) (followed : α → List Expression) (x : Built α) : Prop :=
  ∀ a, x = .ok a → ∀ e ∈ followed a, t.HasFollowed e

/-- What has something behind it in a child has it in the node. -/
theorem Tree.HasFollowed.within {t u : Tree} {e : Expression} (h : u.HasFollowed e)
    (hu : u ∈ t.children) : t.HasFollowed e := by
  obtain ⟨v, hv, hfollowed⟩ := h
  exact ⟨v, mem_nodes_of_mem_children hu hv, hfollowed⟩

namespace Tree.Passes

variable {α β : Type} {t u : Tree} {followed : α → List Expression} {x : Built α}

/-- A refusal builds nothing that could be followed. -/
theorem refused {part : Part} : t.Passes followed (u.malformed part) := fun _ h => nomatch h

/-- What is built passes if each expression followed in it has something behind it in the tree. -/
theorem ok {a : α} (h : ∀ e ∈ followed a, t.HasFollowed e) : t.Passes followed (.ok a) := by
  intro b hb
  cases hb
  exact h

/-- Steps one after the other pass if the last one does, whatever the first one builds. -/
theorem bind {y : Built β} {f : β → Built α} (h : ∀ b, y = .ok b → t.Passes followed (f b)) :
    t.Passes followed (y >>= f) := by
  intro a ha
  obtain ⟨b, hb, ha⟩ := bind_eq_ok.1 ha
  exact h b hb a ha

/-- What passes for a child passes for the node. -/
theorem within (h : u.Passes followed x) (hu : u ∈ t.children) : t.Passes followed x :=
  fun a ha e he => (h a ha e he).within hu

/-- A part with nothing in it but the part that is read off a child. -/
theorem only {followed' : β → List Expression} {wrap : α → β} (h : u.Passes followed x)
    (hu : u ∈ t.children) (hwrap : ∀ a, followed' (wrap a) = followed a) :
    t.Passes followed' (x >>= fun a => .ok (wrap a)) :=
  bind fun a ha => ok fun e he => (h a ha e (hwrap a ▸ he)).within hu

/-- Parts that are read off the children of a node one by one. -/
theorem each {build : Tree → Built α} {as : List α}
    (h : ∀ u ∈ t.children, u.Passes followed (build u)) (has : t.children.mapM build = .ok as) :
    ∀ e ∈ as.flatMap followed, t.HasFollowed e := by
  intro e he
  obtain ⟨a, ha, he⟩ := List.mem_flatMap.1 he
  obtain ⟨u, hu, hbuild⟩ := exists_of_mapM has a ha
  exact (h u hu a hbuild e he).within hu

end Tree.Passes

/-- All but the last of the parts are those of all but the last of the nodes. -/
theorem mapM_dropLast {α : Type} {build : Tree → Built α} {ts : List Tree} {as : List α}
    (h : ts.mapM build = .ok as) : ts.dropLast.mapM build = .ok as.dropLast := by
  induction ts generalizing as with
  | nil => cases h; rfl
  | cons t ts ih =>
    rw [List.mapM_cons] at h
    obtain ⟨a, ha, h⟩ := bind_eq_ok.1 h
    obtain ⟨as, has, h⟩ := bind_eq_ok.1 h
    cases h
    cases ts with
    | nil => cases has; rfl
    | cons u us =>
      obtain ⟨b, bs, rfl⟩ : ∃ b bs, as = b :: bs := by
        rw [List.mapM_cons] at has
        obtain ⟨b, -, has⟩ := bind_eq_ok.1 has
        obtain ⟨bs, -, has⟩ := bind_eq_ok.1 has
        cases has
        exact ⟨b, bs, rfl⟩
      rw [List.dropLast_cons_cons, List.dropLast_cons_cons, List.mapM_cons, ha, ih has]
      rfl

/-- The elements of a list in a node that something follows. -/
theorem Tree.hasFollowed_of_dropLast {α : Type} {build : Tree → Built α} {value : α → Expression}
    {t : Tree} {as : List α} (ht : t.followed = t.children.dropLast.map entry)
    (hvalue : ∀ u a, build u = .ok a → Expression.ofTree u.entry = .ok (value a))
    (h : t.children.mapM build = .ok as) : ∀ e ∈ as.dropLast.map value, t.HasFollowed e := by
  rw [List.forall_mem_map]
  intro a ha
  obtain ⟨u, hu, hbuild⟩ := exists_of_mapM (mapM_dropLast h) a ha
  exact ⟨t, t.mem_nodes_self, u.entry, ht ▸ List.mem_map_of_mem hu, hvalue u a hbuild⟩

/-- What an expression is read off stands for itself in a list. -/
theorem Expression.ofTree_entry {t : Tree} {e : Expression} (h : ofTree t = .ok e) :
    ofTree t.entry = .ok e := by
  obtain ⟨rule, text, start, ts⟩ := t
  cases rule
  case field => cases h
  all_goals exact h

/-- A field stands for its value. -/
theorem Field.ofTree_entry {t : Tree} {x : Field} (h : ofTree t = .ok x) :
    Expression.ofTree t.entry = .ok x.value := by
  rw [ofTree.eq_def] at h
  split at h
  · obtain ⟨name, -, h⟩ := bind_eq_ok.1 h
    obtain ⟨value, hvalue, h⟩ := bind_eq_ok.1 h
    cases h
    exact hvalue
  · cases h

/-! ## Nodes -/

/-- Whatever is followed in what is built from a node is followed below it. -/
structure Tree.KeepsFollowed (t : Tree) : Prop where
  expression : t.Passes Expression.followed (Expression.ofTree t)
  call : ∀ span, t.Passes Call.followed (Call.ofTree t span)
  arguments : t.Passes (fun es => es.dropLast ++ expressionsFollowed es) (argumentsOfTree t)
  operand : t.Passes Operand.followed (Operand.ofTree t)
  block : t.Passes Block.followed (Block.ofTree t)
  literal : t.Passes Literal.followed (Literal.ofTree t)
  field : t.Passes Field.followed (Field.ofTree t)
  item : t.Passes Item.followed (Item.ofTree t)
  statement : t.Passes Statement.followed (Statement.ofTree t)
  assignment : t.Passes Statement.followed (assignmentOfTree t)
  definition : t.Passes Definition.followed (Definition.ofTree t)
  parameters : t.Passes parametersFollowed (parametersOfTree t)
  parameter : t.Passes Parameter.followed (Parameter.ofTree t)
  bindingPart : t.Passes bindingFollowed (bindingOfTree? t)
  binding : t.Passes Binding.followed (Binding.ofTree t)

section Nodes

variable {t : Tree} (hts : ∀ u ∈ t.children, u.KeepsFollowed)
include hts

/-- A left part of an operator was read off the left child, which the operator follows. -/
theorem Expression.ofTree_passes : t.Passes followed (ofTree t) := by
  obtain ⟨rule, text, start, ts⟩ := t
  cases rule
  case binaryExpression =>
    match ts with
    | [left, operator, right] =>
      have hleft : left ∈ [left, operator, right] := by simp
      have hright : right ∈ [left, operator, right] := by simp
      rw [ofTree_binary]
      refine .bind fun e he => .bind fun sign _ => .bind fun v hv => .ok ?_
      rw [followed, List.forall_mem_cons, List.forall_mem_append]
      refine ⟨⟨_, Tree.mem_nodes_self _, left, List.mem_singleton_self left, he⟩,
        fun x hx => ?_, fun x hx => ?_⟩
      · exact ((hts left hleft).expression e he x hx).within hleft
      · exact ((hts right hright).operand v hv x hx).within hright
    | [] | [_] | [_, _] | _ :: _ :: _ :: _ :: _ => exact .refused
  case callExpression =>
    match ts with
    | [c] =>
      rw [ofTree_call]
      exact ((hts c (List.mem_singleton_self c)).call _).only (List.mem_singleton_self c) fun _ => rfl
    | [] | _ :: _ :: _ => exact .refused
  case operandExpression =>
    match ts with
    | [v] =>
      rw [ofTree_operand]
      exact (hts v (List.mem_singleton_self v)).operand.only (List.mem_singleton_self v) fun _ => rfl
    | [] | _ :: _ :: _ => exact .refused
  all_goals exact .refused

/-- The expressions that stand in a list. -/
theorem expressionsOfTrees_passes (ht : t.followed = t.children.dropLast.map Tree.entry) :
    t.Passes (fun es => es.dropLast ++ expressionsFollowed es) (expressionsOfTrees t.children) := by
  rw [expressionsOfTrees_eq_mapM]
  intro es hes
  rw [List.forall_mem_append, expressionsFollowed_eq]
  refine ⟨?_, Tree.Passes.each (fun u hu => (hts u hu).expression) hes⟩
  rw [← List.map_id es.dropLast]
  exact Tree.hasFollowed_of_dropLast ht (fun _ _ => Expression.ofTree_entry) hes

/-- All arguments but the last have a comma behind them in the tree. -/
theorem argumentsOfTree_passes :
    t.Passes (fun es => es.dropLast ++ expressionsFollowed es) (argumentsOfTree t) := by
  rw [argumentsOfTree.eq_def]
  split
  · exact expressionsOfTrees_passes hts rfl
  · exact .refused

/-- What is followed in a call is followed among the children of its node. -/
theorem Call.ofTree_passes (span : Span) : t.Passes followed (ofTree t span) := by
  rw [ofTree.eq_def]
  split
  · next text start callee arguments =>
    have harguments : arguments ∈ [callee, arguments] := by simp
    refine .bind fun es hes => .bind fun keyword _ => .ok fun e he => ?_
    exact ((hts arguments harguments).arguments es hes e he).within harguments
  · next text start callee arguments =>
    have harguments : arguments ∈ [callee, arguments] := by simp
    refine .bind fun es hes => .bind fun path _ => .ok fun e he => ?_
    exact ((hts arguments harguments).arguments es hes e he).within harguments
  · exact .refused

theorem Operand.ofTree_passes : t.Passes followed (ofTree t) := by
  rw [ofTree.eq_def]
  split
  · next u =>
    exact (hts u (List.mem_singleton_self u)).literal.only (List.mem_singleton_self u) fun _ => rfl
  · exact .bind fun path _ => .ok (List.forall_mem_nil _)
  · next u =>
    exact (hts u (List.mem_singleton_self u)).block.only (List.mem_singleton_self u) fun _ => rfl
  · next u =>
    exact (hts u (List.mem_singleton_self u)).expression.only (List.mem_singleton_self u) fun _ => rfl
  · exact .refused

theorem Block.ofTree_passes : t.Passes followed (ofTree t) := by
  rw [ofTree.eq_def]
  split
  · next text start ts =>
    refine .bind fun is his => .ok ?_
    rw [itemsOfTrees_eq_mapM] at his
    rw [followed, itemsFollowed_eq]
    exact Tree.Passes.each (fun u hu => (hts u hu).item) his
  · exact .refused

theorem Field.ofTree_passes : t.Passes followed (ofTree t) := by
  rw [ofTree.eq_def]
  split
  · next text start key value =>
    have hvalue : value ∈ [key, value] := by simp
    exact .bind fun name _ => (hts value hvalue).expression.only hvalue fun _ => rfl
  · exact .refused

omit hts in
/-- Nothing stands inside of a word. -/
theorem Literal.followed_of_ofWord {v : Literal} (h : ofWord t = .ok v) : v.followed = [] := by
  unfold ofWord at h
  split at h
  case h_1 | h_6 => split at h <;> cases h; rfl
  case h_7 =>
    split at h
    · cases h; rfl
    · split at h <;> cases h; rfl
  case h_8 => cases h
  all_goals cases h; rfl

/-- All elements of a literal but the last have a comma behind them in the tree. -/
theorem Literal.ofTree_passes : t.Passes followed (ofTree t) := by
  rw [ofTree.eq_def]
  split
  · exact .bind fun es hes => .ok (expressionsOfTrees_passes hts rfl es hes)
  · exact .bind fun es hes => .ok (expressionsOfTrees_passes hts rfl es hes)
  · refine .bind fun xs hxs => .ok ?_
    rw [fieldsOfTrees_eq_mapM] at hxs
    rw [followed, List.forall_mem_append, fieldsFollowed_eq]
    exact ⟨Tree.hasFollowed_of_dropLast rfl (fun _ _ => Field.ofTree_entry) hxs,
      Tree.Passes.each (fun u hu => (hts u hu).field) hxs⟩
  · intro v hv
    rw [followed_of_ofWord hv]
    exact List.forall_mem_nil _

theorem Item.ofTree_passes : t.Passes followed (ofTree t) := by
  rw [ofTree.eq_def]
  split
  · next u =>
    exact (hts u (List.mem_singleton_self u)).statement.only (List.mem_singleton_self u) fun _ => rfl
  · next u =>
    exact (hts u (List.mem_singleton_self u)).expression.only (List.mem_singleton_self u) fun _ => rfl
  · exact .refused

theorem Statement.ofTree_passes : t.Passes followed (ofTree t) := by
  rw [ofTree.eq_def]
  split
  · next u => exact (hts u (List.mem_singleton_self u)).assignment.within (List.mem_singleton_self u)
  · next u =>
    exact (hts u (List.mem_singleton_self u)).definition.only (List.mem_singleton_self u) fun _ => rfl
  · exact .refused

theorem assignmentOfTree_passes : t.Passes Statement.followed (assignmentOfTree t) := by
  rw [assignmentOfTree.eq_def]
  split
  · next text start target value =>
    have hvalue : value ∈ [target, value] := by simp
    exact .bind fun path _ => (hts value hvalue).expression.only hvalue fun _ => rfl
  · exact .refused

theorem Parameter.ofTree_passes : t.Passes followed (ofTree t) := by
  rw [ofTree.eq_def]
  split
  · exact .bind fun name _ => .ok (List.forall_mem_nil _)
  · next u =>
    exact (hts u (List.mem_singleton_self u)).literal.only (List.mem_singleton_self u) fun _ => rfl
  · exact .refused

theorem parametersOfTree_passes : t.Passes parametersFollowed (parametersOfTree t) := by
  rw [parametersOfTree.eq_def]
  split
  · intro ps hps
    rw [parametersOfTrees_eq_mapM] at hps
    rw [parametersFollowed_eq]
    exact Tree.Passes.each (fun u hu => (hts u hu).parameter) hps
  · exact .refused

/-- A body is kept as it is or as a group; nothing follows it either way. -/
theorem Binding.ofTree_passes : t.Passes followed (ofTree t) := by
  rw [ofTree.eq_def]
  split
  · next text start u =>
    have hu : u ∈ [u] := List.mem_singleton_self u
    refine .bind fun e he => ?_
    have hinner : ∀ x ∈ e.followed, (Tree.node .binding text start [u]).HasFollowed x :=
      fun x hx => ((hts u hu).expression e he x hx).within hu
    cases e <;> exact .ok hinner
  · exact .refused

theorem bindingOfTree?_passes : t.Passes bindingFollowed (bindingOfTree? t) := by
  rw [bindingOfTree?.eq_def]
  split
  · exact .ok (List.forall_mem_nil _)
  · next u =>
    exact (hts u (List.mem_singleton_self u)).binding.only (List.mem_singleton_self u) fun _ => rfl
  · exact .refused

/-- What is followed in a definition is followed in the node of a parameter or of the body. -/
theorem Definition.ofTree_passes : t.Passes followed (ofTree t) := by
  rw [ofTree.eq_def]
  split
  · next text start word label types inputs body =>
    have hinputs : inputs ∈ [word, label, types, inputs, body] := by simp
    have hbody : body ∈ [word, label, types, inputs, body] := by simp
    refine .bind fun k _ => .bind fun n _ => .bind fun g _ => .bind fun ps hps => .bind fun b hb =>
      .ok ?_
    rw [followed, List.forall_mem_append]
    exact ⟨fun e he => ((hts inputs hinputs).parameters ps hps e he).within hinputs,
      fun e he => ((hts body hbody).bindingPart b hb e he).within hbody⟩
  · exact .refused

end Nodes

/-- **What is followed in a part of a program is followed in the tree of the part.** -/
theorem Tree.keepsFollowed (t : Tree) : t.KeepsFollowed := by
  induction t using Tree.induction with
  | h rule text start ts hts =>
    have hchildren : ∀ u ∈ (Tree.node rule text start ts).children, u.KeepsFollowed := hts
    exact {
      expression := Expression.ofTree_passes hchildren
      call := Call.ofTree_passes hchildren
      arguments := argumentsOfTree_passes hchildren
      operand := Operand.ofTree_passes hchildren
      block := Block.ofTree_passes hchildren
      literal := Literal.ofTree_passes hchildren
      field := Field.ofTree_passes hchildren
      item := Item.ofTree_passes hchildren
      statement := Statement.ofTree_passes hchildren
      assignment := assignmentOfTree_passes hchildren
      definition := Definition.ofTree_passes hchildren
      parameters := parametersOfTree_passes hchildren
      parameter := Parameter.ofTree_passes hchildren
      bindingPart := bindingOfTree?_passes hchildren
      binding := Binding.ofTree_passes hchildren }

theorem Element.ofTree_passes (t : Tree) : t.Passes followed (ofTree t) := by
  rw [ofTree.eq_def]
  split
  · next u => exact u.keepsFollowed.item.only (List.mem_singleton_self u) fun _ => rfl
  · exact .bind fun comment _ => .ok (List.forall_mem_nil _)
  · exact .refused

/-- What is followed in a program is followed in the tree that it was built from. -/
theorem Program.ofTree_passes (t : Tree) : t.Passes followed (ofTree t) := by
  rw [ofTree.eq_def]
  split
  · exact .bind fun es hes => .ok (Tree.Passes.each (fun u _ => Element.ofTree_passes u) hes)
  · exact .refused

/-! ## Calls -/

/-- There are no arguments exactly if the list in the tree has no children. -/
theorem argumentsOfTree_isEmpty {t : Tree} {es : List Expression} (h : argumentsOfTree t = .ok es) :
    es.isEmpty = t.children.isEmpty := by
  rw [argumentsOfTree.eq_def] at h
  split at h
  · next text start ts =>
    cases ts with
    | nil => cases h; rfl
    | cons u us =>
      obtain ⟨e, -, h⟩ := bind_eq_ok.1 h
      obtain ⟨es, -, h⟩ := bind_eq_ok.1 h
      cases h
      rfl
  · cases h

/-- The arguments of a call are built from the second child of its node. -/
theorem Call.ofTree_arguments {t : Tree} {span : Span} {c : Call} (h : ofTree t span = .ok c) :
    ∃ rule text start callee arguments, t = .node rule text start [callee, arguments] ∧
      argumentsOfTree arguments = .ok c.arguments := by
  rw [ofTree.eq_def] at h
  split at h
  case h_1 | h_2 =>
    obtain ⟨es, hes, h⟩ := bind_eq_ok.1 h
    obtain ⟨callee, -, h⟩ := bind_eq_ok.1 h
    cases h
    exact ⟨_, _, _, _, _, rfl, hes⟩
  case h_3 => cases h

/-- An expression is a call with arguments exactly if its node is one. -/
theorem Expression.ofTree_takesArguments {t : Tree} {e : Expression} (h : ofTree t = .ok e) :
    e.takesArguments = t.takesArguments := by
  rw [ofTree_eq_recursiveOfTree, recursiveOfTree.eq_def] at h
  split at h
  · obtain ⟨l, -, h⟩ := bind_eq_ok.1 h
    obtain ⟨sign, -, h⟩ := bind_eq_ok.1 h
    obtain ⟨v, -, h⟩ := bind_eq_ok.1 h
    cases h
    rfl
  · obtain ⟨c, hc, h⟩ := bind_eq_ok.1 h
    cases h
    obtain ⟨rule, text, start, callee, arguments, rfl, harguments⟩ := Call.ofTree_arguments hc
    rw [Grammar.takesArguments_call, takesArguments, argumentsOfTree_isEmpty harguments]
  · obtain ⟨v, -, h⟩ := bind_eq_ok.1 h
    cases h
    rfl
  · split at h <;> cases h

/-- **No call with arguments is followed in a program**, by an operator or by another element of its
list, and each call in its tree takes all it can of the source. -/
theorem Program.ofSource_followed {source : String} {p : Program} (h : ofSource source = .ok p) :
    (∀ e ∈ p.followed, e.takesArguments = false) ∧
    ∃ tree, Tree.ofSource source = .ok tree ∧ ofTree tree = .ok p ∧
      ∀ u ∈ tree.nodes, u.rule = .callExpression →
        ∃ e, (Cursor.ofSource source).Reaches e ∧ u.EndsAt e := by
  obtain ⟨tree, htree, h⟩ := bind_eq_ok.1 h
  rw [mapError_eq_ok] at htree h
  have hinnermost := Tree.ofSource_innermost htree
  refine ⟨fun e he => ?_, tree, htree, h, fun u hu => (hinnermost u hu).whole⟩
  obtain ⟨u, hu, v, hv, hread⟩ := Program.ofTree_passes tree p h e he
  rw [Expression.ofTree_takesArguments hread]
  exact (hinnermost u hu).alone v hv

/-- The comma and the operator behind the first argument belong to the call: it has a second argument,
and the array no third element. -/
theorem callInArray_followed :
    ∃ p, Program.ofSource "$[1, &f 2, 3 + 4];" = .ok p ∧
      (p.followed.flatMap Expression.outlines).map Outline.span =
        [some ⟨2, 3⟩, some ⟨8, 9⟩, some ⟨11, 12⟩] ∧
      ∀ e ∈ p.followed, e.takesArguments = false := by
  have hspans : (Program.ofSource "$[1, &f 2, 3 + 4];").toOption.map
      (fun p => (p.followed.flatMap Expression.outlines).map Outline.span) =
        some [some ⟨2, 3⟩, some ⟨8, 9⟩, some ⟨11, 12⟩] := by decide +kernel
  cases h : Program.ofSource "$[1, &f 2, 3 + 4];" with
  | error e => rw [h] at hspans; cases hspans
  | ok p =>
    rw [h] at hspans
    exact ⟨p, rfl, Option.some.inj hspans, (Program.ofSource_followed h).1⟩

end Chainlet
