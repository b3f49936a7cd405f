import Chainlet.Program.OfSource
import Chainlet.Proofs.Grammar.Sound
import Chainlet.Proofs.Outline.Built
import Chainlet.Proofs.Program.Spine
import Chainlet.Proofs.Spelling.Basic
import Chainlet.Proofs.Tree.Nodes

/-!
# Proofs/Program/Mentions — the paths and the integers of a program

`Program.mentions` lists what a program mentions at any depth: the paths that it reads, assigns and
calls, and its integers, in the order in which code for them stands.  What is built from a tree whose
words are spelt mentions nothing that could not be written down (`Tree.Mentions`), so **every path and
every integer of the program of a source has the form of its words** (`Program.ofSource_mentions`).
-/

namespace Chainlet

/-! ## What is mentioned -/

/-- A part of a program that stands for a global, a function or a number. -/
inductive Mention where
  | read (path : Path)
  | assigned (path : Path)
  | called (callee : Callee)
  /-- An array or an object, which is allocated. -/
  | composite
  | int (text : String) (base : Base)
deriving DecidableEq

namespace Mention

/-- The path of a mention, if it names one. -/
def path? : Mention → Option Path
  | read path | assigned path | called (.user path) => some path
  | called (.builtin _) | composite | int .. => none

/-- Whether what is mentioned can be written down. -/
def isWritable : Mention → Bool
  | read path | assigned path => path.isWritable
  | called callee => callee.isWritable
  | composite => true
  | int text base => base.form text.toList

/-- A mention of a path can be written down exactly if the path can. -/
theorem isWritable_of_path? {m : Mention} {path : Path} (h : m.path? = some path) :
    m.isWritable = path.isWritable := by
  cases m with
  | read p | assigned p => cases h; rfl
  | called c =>
    cases c with
    | builtin keyword => cases h
    | user p => cases h; rfl
  | composite | int text base => cases h

end Mention

mutual

/-- What an expression mentions. -/
def Expression.mentions : Expression → List Mention
  | .binary left _ right _ => left.mentions ++ right.mentions
  | .call c => c.mentions
  | .operand v => v.mentions

/-- A call mentions what its arguments do, and behind them the function. -/
def Call.mentions : Call → List Mention
  | ⟨callee, arguments, _⟩ => expressionsMentions arguments ++ [.called callee]

/-- An operand mentions the path that it reads, or what the part inside it does. -/
def Operand.mentions : Operand → List Mention
  | .literal v => v.mentions
  | .path p => [.read p]
  | .block b => b.mentions
  | .group inner => inner.mentions

/-- A block mentions what its items do. -/
def Block.mentions : Block → List Mention
  | ⟨items, _⟩ => itemsMentions items

/-- A literal mentions the numbers in it, and an array or an object its storage first. -/
def Literal.mentions : Literal → List Mention
  | .array elements _ => .composite :: expressionsMentions elements
  | .object fields _ => .composite :: fieldsMentions fields
  | .tuple elements _ => expressionsMentions elements
  | .int text base _ => [.int text base]
  | .string .. | .float .. | .boolean .. => []

/-- A field mentions what its value does; its key is no access. -/
def Field.mentions : Field → List Mention
  | ⟨_, value, _⟩ => value.mentions

/-- An item mentions what its statement or its expression does. -/
def Item.mentions : Item → List Mention
  | .statement s => s.mentions
  | .expression e => e.mentions

/-- An assignment mentions its target behind the value. -/
def Statement.mentions : Statement → List Mention
  | .assignment target value _ => value.mentions ++ [.assigned target]
  | .definition d => d.mentions

/-- A definition mentions what its parameters and its body do. -/
def Definition.mentions : Definition → List Mention
  | ⟨_, _, _, parameters, binding, _⟩ => parametersMentions parameters ++ bindingMentions binding

/-- A parameter mentions what its pattern does; a name is no access. -/
def Parameter.mentions : Parameter → List Mention
  | .named _ => []
  | .pattern v => v.mentions

/-- A binding mentions what the body does. -/
def Binding.mentions : Binding → List Mention
  | ⟨body, _⟩ => body.mentions

/-- A body that may be missing mentions nothing then. -/
def bindingMentions : Option Binding → List Mention
  | none => []
  | some b => b.mentions

/-- What the expressions of a list mention, in their order. -/
def expressionsMentions : List Expression → List Mention
  | [] => []
  | e :: es => e.mentions ++ expressionsMentions es

/-- What the fields of a list mention, in their order. -/
def fieldsMentions : List Field → List Mention
  | [] => []
  | x :: xs => x.mentions ++ fieldsMentions xs

/-- What the items of a list mention, in their order. -/
def itemsMentions : List Item → List Mention
  | [] => []
  | i :: is => i.mentions ++ itemsMentions is

/-- What the parameters of a list mention, in their order. -/
def parametersMentions : List Parameter → List Mention
  | [] => []
  | p :: ps => p.mentions ++ parametersMentions ps

end

/-- An element mentions what its item does, and a comment mentions nothing. -/
def Element.mentions : Element → List Mention
  | .item i => i.mentions
  | .docComment _ => []

/-- **What a program mentions.** -/
def Program.mentions (p : Program) : List Mention := p.elements.flatMap Element.mentions

/-- The paths of a program. -/
def Program.paths (p : Program) : List Path := p.mentions.filterMap Mention.path?

/-! ### Lists -/

theorem expressionsMentions_eq (es : List Expression) :
    expressionsMentions es = es.flatMap Expression.mentions := by
  induction es with
  | nil => rfl
  | cons e es ih => rw [expressionsMentions, List.flatMap_cons, ih]

theorem fieldsMentions_eq (xs : List Field) : fieldsMentions xs = xs.flatMap Field.mentions := by
  induction xs with
  | nil => rfl
  | cons x xs ih => rw [fieldsMentions, List.flatMap_cons, ih]

/-- A key mentions nothing. -/
theorem fieldsMentions_eq_values (xs : List Field) :
    fieldsMentions xs = (xs.map Field.value).flatMap Expression.mentions := by
  rw [fieldsMentions_eq, List.flatMap_map]
  exact List.flatMap_congr fun ⟨_, _, _⟩ _ => rfl

theorem itemsMentions_eq (is : List Item) : itemsMentions is = is.flatMap Item.mentions := by
  induction is with
  | nil => rfl
  | cons i is ih => rw [itemsMentions, List.flatMap_cons, ih]

theorem parametersMentions_eq (ps : List Parameter) :
    parametersMentions ps = ps.flatMap Parameter.mentions := by
  induction ps with
  | nil => rfl
  | cons p ps ih => rw [parametersMentions, List.flatMap_cons, ih]

/-! ## Steps that mention what can be written down -/

/-- A step whose result, if there is one, mentions only what can be written down. -/
def Writable {α : Type} (mentions : α → List Mention) (x : Built α) : Prop :=
  ∀ a, x = .ok a → ∀ m ∈ mentions a, m.isWritable = true

namespace Writable

variable {α β : Type} {mentions : α → List Mention} {x : Built α}

/-- A refusal mentions nothing. -/
theorem refused {t : Tree} {part : Part} : Writable mentions (t.malformed part : Built α) :=
  fun _ h => nomatch h

/-- A result is writable if each of its mentions is. -/
theorem ok {a : α} (h : ∀ m ∈ mentions a, m.isWritable = true) : Writable mentions (.ok a) := by
  intro b hb
  cases hb
  exact h

/-- Steps one after the other are writable if the last one is. -/
theorem bind {y : Built β} {f : β → Built α} (h : ∀ b, y = .ok b → Writable mentions (f b)) :
    Writable mentions (y >>= f) := by
  intro a ha
  obtain ⟨b, hb, ha⟩ := bind_eq_ok.1 ha
  exact h b hb a ha

/-- A part that mentions what the part inside of it does. -/
theorem only {mentions' : β → List Mention} {wrap : α → β} (h : Writable mentions x)
    (hwrap : ∀ a, mentions' (wrap a) = mentions a) : Writable mentions' (x >>= fun a => .ok (wrap a)) :=
  bind fun a ha => ok fun m hm => h a ha m (hwrap a ▸ hm)

/-- Parts that are built one by one. -/
theorem each {build : Tree → Built α} {ts : List Tree} {as : List α}
    (h : ∀ t ∈ ts, Writable mentions (build t)) (has : ts.mapM build = .ok as) :
    ∀ m ∈ as.flatMap mentions, m.isWritable = true := by
  intro m hm
  obtain ⟨a, ha, hm⟩ := List.mem_flatMap.1 hm
  obtain ⟨t, ht, hbuild⟩ := exists_of_mapM has a ha
  exact h t ht a hbuild m hm

end Writable

/-! ## Words -/

/-- Whether every word of a tree has the form of its rule. -/
def Tree.WellSpelt (t : Tree) : Prop := ∀ u ∈ t.nodes, u.spelt = true

/-- The children of a well spelt tree are well spelt. -/
theorem Tree.WellSpelt.child {t u : Tree} (h : t.WellSpelt) (hu : u ∈ t.children) : u.WellSpelt :=
  fun v hv => h v (mem_nodes_of_mem_children hu hv)

/-- A word that is read off a node by the rule of the node has the form of that rule. -/
theorem Tree.textOf_form {t : Tree} {rule : Rule} {form : List Char → Bool} {part : Part} {word : String}
    (ht : t.WellSpelt) (hform : rule.form? = some form) (h : t.textOf rule part = .ok word) :
    form word.toList = true := by
  obtain ⟨rfl, rfl⟩ := textOf_eq_ok.1 h
  have hspelt := ht t t.mem_nodes_self
  rw [spelt, hform] at hspelt
  exact hspelt

/-- A path that is built from a well spelt tree can be written down. -/
theorem Path.ofTree_isWritable {t : Tree} (ht : t.WellSpelt) {p : Path} (h : ofTree t = .ok p) :
    p.isWritable = true := by
  rw [ofTree.eq_def] at h
  split at h
  · next text start u us =>
    obtain ⟨names, hnames, h⟩ := bind_eq_ok.1 h
    cases h
    have hall : names.all (fun name => Form.name name.toList) = true := List.all_eq_true.2 fun name hname => by
      obtain ⟨v, hv, hread⟩ := exists_of_mapM hnames name hname
      exact Tree.textOf_form (ht.child hv) rfl hread
    have hne : names ≠ [] := by
      rintro rfl
      rw [List.mapM_cons] at hnames
      obtain ⟨first, -, hnames⟩ := bind_eq_ok.1 hnames
      obtain ⟨more, -, hnames⟩ := bind_eq_ok.1 hnames
      cases hnames
    rw [isWritable, hall, Bool.and_true, Bool.not_eq_true', List.isEmpty_eq_false_iff]
    exact hne
  · cases h

/-- The only word that mentions something is an integer, which has the form of its base. -/
theorem Literal.ofWord_writable {t : Tree} (ht : t.spelt = true) : Writable mentions (ofWord t) := by
  obtain ⟨rule, text, start, ts⟩ := t
  intro v hv
  cases rule
  case stringLiteral =>
    dsimp only [ofWord, Tree.rule] at hv
    split at hv <;> cases hv
    exact List.forall_mem_nil _
  case floatLiteral =>
    dsimp only [ofWord, Tree.rule] at hv
    split at hv <;> cases hv
    exact List.forall_mem_nil _
  case booleanLiteral =>
    dsimp only [ofWord, Tree.rule] at hv
    split at hv
    · cases hv
      exact List.forall_mem_nil _
    · split at hv <;> cases hv
      exact List.forall_mem_nil _
  case decimalLiteral | binaryLiteral | hexLiteral | octalLiteral =>
    cases hv
    exact List.forall_mem_singleton.2 ht
  all_goals cases hv

/-! ## Nodes -/

/-- Whatever is built from a node mentions only what can be written down. -/
structure Tree.Mentions (t : Tree) : Prop where
  expression : Writable Expression.mentions (Expression.ofTree t)
  call : ∀ span, Writable Call.mentions (Call.ofTree t span)
  arguments : Writable expressionsMentions (argumentsOfTree t)
  operand : Writable Operand.mentions (Operand.ofTree t)
  block : Writable Block.mentions (Block.ofTree t)
  literal : Writable Literal.mentions (Literal.ofTree t)
  field : Writable Field.mentions (Field.ofTree t)
  item : Writable Item.mentions (Item.ofTree t)
  statement : Writable Statement.mentions (Statement.ofTree t)
  assignment : Writable Statement.mentions (assignmentOfTree t)
  definition : Writable Definition.mentions (Definition.ofTree t)
  parameters : Writable parametersMentions (parametersOfTree t)
  parameter : Writable Parameter.mentions (Parameter.ofTree t)
  bindingPart : Writable bindingMentions (bindingOfTree? t)
  binding : Writable Binding.mentions (Binding.ofTree t)

section Nodes

variable {t : Tree} (hts : ∀ u ∈ t.children, u.Mentions)
include hts

/-- An expression mentions what its parts do. -/
theorem Expression.ofTree_writable : Writable mentions (ofTree t) := by
  obtain ⟨rule, text, start, ts⟩ := t
  cases rule
  case binaryExpression =>
    obtain _ | ⟨left, _ | ⟨operator, _ | ⟨right, _ | _⟩⟩⟩ := ts
    case cons.cons.cons.nil =>
      rw [ofTree_binary]
      refine .bind fun e he => .bind fun sign _ => .bind fun v hv => .ok ?_
      rw [mentions, List.forall_mem_append]
      exact ⟨(hts left (by simp [Tree.children])).expression e he,
        (hts right (by simp [Tree.children])).operand v hv⟩
    all_goals exact .refused
  case callExpression =>
    obtain _ | ⟨c, _ | _⟩ := ts
    case cons.nil =>
      rw [ofTree_call]
      exact ((hts c (List.mem_singleton_self c)).call _).only fun _ => rfl
    all_goals exact .refused
  case operandExpression =>
    obtain _ | ⟨v, _ | _⟩ := ts
    case cons.nil =>
      rw [ofTree_operand]
      exact (hts v (List.mem_singleton_self v)).operand.only fun _ => rfl
    all_goals exact .refused
  all_goals exact .refused

/-- The expressions that stand in a list. -/
theorem expressionsOfTrees_writable : Writable expressionsMentions (expressionsOfTrees t.children) := by
  rw [expressionsOfTrees_eq_mapM]
  intro es hes
  rw [expressionsMentions_eq]
  exact Writable.each (fun u hu => (hts u hu).expression) hes

/-- The arguments of a call mention what can be written down. -/
theorem argumentsOfTree_writable : Writable expressionsMentions (argumentsOfTree t) := by
  rw [argumentsOfTree.eq_def]
  split
  · exact expressionsOfTrees_writable hts
  · exact .refused

/-- A call mentions a keyword or a path that stands in the tree. -/
theorem Call.ofTree_writable (ht : t.WellSpelt) (span : Span) : Writable mentions (ofTree t span) := by
  rw [ofTree.eq_def]
  split
  · next text start callee arguments =>
    have hcallee : callee ∈ [callee, arguments] := by simp
    have harguments : arguments ∈ [callee, arguments] := by simp
    refine .bind fun es hes => .bind fun keyword hkeyword => .ok ?_
    rw [mentions, List.forall_mem_append, List.forall_mem_singleton]
    exact ⟨(hts arguments harguments).arguments es hes, Tree.textOf_form (ht.child hcallee) rfl hkeyword⟩
  · next text start callee arguments =>
    have hcallee : callee ∈ [callee, arguments] := by simp
    have harguments : arguments ∈ [callee, arguments] := by simp
    refine .bind fun es hes => .bind fun path hpath => .ok ?_
    rw [mentions, List.forall_mem_append, List.forall_mem_singleton]
    exact ⟨(hts arguments harguments).arguments es hes, Path.ofTree_isWritable (ht.child hcallee) hpath⟩
  · exact .refused

/-- An operand mentions a path that stands in the tree, or what its inside does. -/
theorem Operand.ofTree_writable (ht : t.WellSpelt) : Writable mentions (ofTree t) := by
  rw [ofTree.eq_def]
  split
  · next u => exact (hts u (List.mem_singleton_self u)).literal.only fun _ => rfl
  · next u =>
    refine .bind fun path hpath => .ok ?_
    rw [mentions, List.forall_mem_singleton]
    exact Path.ofTree_isWritable (ht.child (List.mem_singleton_self u)) hpath
  · next u => exact (hts u (List.mem_singleton_self u)).block.only fun _ => rfl
  · next u => exact (hts u (List.mem_singleton_self u)).expression.only fun _ => rfl
  · exact .refused

theorem Block.ofTree_writable : Writable mentions (ofTree t) := by
  rw [ofTree.eq_def]
  split
  · next text start ts =>
    refine .bind fun is his => .ok ?_
    rw [itemsOfTrees_eq_mapM] at his
    rw [mentions, itemsMentions_eq]
    exact Writable.each (fun u hu => (hts u hu).item) his
  · exact .refused

theorem Field.ofTree_writable : Writable mentions (ofTree t) := by
  rw [ofTree.eq_def]
  split
  · next text start key value =>
    exact .bind fun name _ => (hts value (by simp [Tree.children])).expression.only fun _ => rfl
  · exact .refused

/-- The numbers of a literal are words of the tree, which have their forms. -/
theorem Literal.ofTree_writable (ht : t.WellSpelt) : Writable mentions (ofTree t) := by
  have hcomposite : Mention.isWritable .composite = true := rfl
  rw [ofTree.eq_def]
  split
  · refine .bind fun es hes => .ok ?_
    exact List.forall_mem_cons.2 ⟨hcomposite, expressionsOfTrees_writable hts es hes⟩
  · exact .bind fun es hes => .ok (expressionsOfTrees_writable hts es hes)
  · refine .bind fun xs hxs => .ok ?_
    rw [fieldsOfTrees_eq_mapM] at hxs
    rw [mentions, List.forall_mem_cons, fieldsMentions_eq]
    exact ⟨hcomposite, Writable.each (fun u hu => (hts u hu).field) hxs⟩
  · exact ofWord_writable (ht t t.mem_nodes_self)

theorem Item.ofTree_writable : Writable mentions (ofTree t) := by
  rw [ofTree.eq_def]
  split
  · next u => exact (hts u (List.mem_singleton_self u)).statement.only fun _ => rfl
  · next u => exact (hts u (List.mem_singleton_self u)).expression.only fun _ => rfl
  · exact .refused

theorem Statement.ofTree_writable : Writable mentions (ofTree t) := by
  rw [ofTree.eq_def]
  split
  · next u => exact (hts u (List.mem_singleton_self u)).assignment
  · next u => exact (hts u (List.mem_singleton_self u)).definition.only fun _ => rfl
  · exact .refused

/-- An assignment mentions a path that stands in the tree. -/
theorem assignmentOfTree_writable (ht : t.WellSpelt) :
    Writable Statement.mentions (assignmentOfTree t) := by
  rw [assignmentOfTree.eq_def]
  split
  · next text start target value =>
    have htarget : target ∈ [target, value] := by simp
    refine .bind fun path hpath => .bind fun e he => .ok ?_
    rw [Statement.mentions, List.forall_mem_append, List.forall_mem_singleton]
    exact ⟨(hts value (by simp [Tree.children])).expression e he,
      Path.ofTree_isWritable (ht.child htarget) hpath⟩
  · exact .refused

theorem Parameter.ofTree_writable : Writable mentions (ofTree t) := by
  rw [ofTree.eq_def]
  split
  · exact .bind fun name _ => .ok (List.forall_mem_nil _)
  · next u => exact (hts u (List.mem_singleton_self u)).literal.only fun _ => rfl
  · exact .refused

theorem parametersOfTree_writable : Writable parametersMentions (parametersOfTree t) := by
  rw [parametersOfTree.eq_def]
  split
  · intro ps hps
    rw [parametersOfTrees_eq_mapM] at hps
    rw [parametersMentions_eq]
    exact Writable.each (fun u hu => (hts u hu).parameter) hps
  · exact .refused

/-- A body is kept as it is or as a group; it mentions the same either way. -/
theorem Binding.ofTree_writable : Writable mentions (ofTree t) := by
  rw [ofTree.eq_def]
  split
  · next text start u =>
    refine .bind fun e he => ?_
    have hinner : ∀ m ∈ e.mentions, m.isWritable = true :=
      (hts u (List.mem_singleton_self u)).expression e he
    cases e <;> exact .ok hinner
  · exact .refused

theorem bindingOfTree?_writable : Writable bindingMentions (bindingOfTree? t) := by
  rw [bindingOfTree?.eq_def]
  split
  · exact .ok (List.forall_mem_nil _)
  · next u => exact (hts u (List.mem_singleton_self u)).binding.only fun _ => rfl
  · exact .refused

theorem Definition.ofTree_writable : Writable mentions (ofTree t) := by
  rw [ofTree.eq_def]
  split
  · next text start word label types inputs body =>
    refine .bind fun k _ => .bind fun n _ => .bind fun g _ => .bind fun ps hps => .bind fun b hb =>
      .ok ?_
    rw [mentions, List.forall_mem_append]
    exact ⟨(hts inputs (by simp [Tree.children])).parameters ps hps,
      (hts body (by simp [Tree.children])).bindingPart b hb⟩
  · exact .refused

end Nodes

/-- **What is built from a tree whose words are spelt can be written down, word by word.** -/
theorem Tree.mentions {t : Tree} (ht : t.WellSpelt) : t.Mentions := by
  induction t using Tree.induction with
  | h rule text start ts ih =>
    have hts : ∀ u ∈ (Tree.node rule text start ts).children, u.Mentions :=
      fun u hu => ih u hu (ht.child hu)
    exact {
      expression := Expression.ofTree_writable hts
      call := Call.ofTree_writable hts ht
      arguments := argumentsOfTree_writable hts
      operand := Operand.ofTree_writable hts ht
      block := Block.ofTree_writable hts
      literal := Literal.ofTree_writable hts ht
      field := Field.ofTree_writable hts
      item := Item.ofTree_writable hts
      statement := Statement.ofTree_writable hts
      assignment := assignmentOfTree_writable hts ht
      definition := Definition.ofTree_writable hts
      parameters := parametersOfTree_writable hts
      parameter := Parameter.ofTree_writable hts
      bindingPart := bindingOfTree?_writable hts
      binding := Binding.ofTree_writable hts }

/-! ## Programs -/

/-- An element that is built from a well spelt tree mentions what can be written down. -/
theorem Element.ofTree_writable {t : Tree} (ht : t.WellSpelt) : Writable mentions (ofTree t) := by
  rw [ofTree.eq_def]
  split
  · next u => exact (Tree.mentions (ht.child (List.mem_singleton_self u))).item.only fun _ => rfl
  · exact .bind fun comment _ => .ok (List.forall_mem_nil _)
  · exact .refused

/-- A program that is built from a well spelt tree mentions what can be written down. -/
theorem Program.ofTree_writable {t : Tree} (ht : t.WellSpelt) : Writable mentions (ofTree t) := by
  rw [ofTree.eq_def]
  split
  · exact .bind fun es hes => .ok (Writable.each (fun u hu => Element.ofTree_writable (ht.child hu)) hes)
  · exact .refused

/-- **The paths and the integers of the program of a source have the forms of their words.** -/
theorem Program.ofSource_mentions {source : String} {p : Program} (h : ofSource source = .ok p) :
    ∀ m ∈ p.mentions, m.isWritable = true := by
  obtain ⟨tree, htree, hp⟩ := ofSource_eq_ok.1 h
  exact ofTree_writable (Tree.spelt_of_conforms (Tree.ofSource_conforms htree)) p hp

end Chainlet
