import Mathlib.Data.List.Forall2
import Chainlet.Proofs.Program.Corresponds
import Chainlet.Proofs.Spelling.Basic

/-!
# Proofs/Spelling/Means — trees that stand for a part of a program

A tree `Means` a part of a program if it is built to that part, but for the spans.  There is one lemma
for each kind of node: a node means the part whose own parts its children mean.
-/

namespace Chainlet

/-- A tree that is built to a part of a program, but for its spans. -/
def Means {α : Type} (build : Tree → Built α) (erase : α → α) (x : α) (t : Tree) : Prop :=
  ∃ y, build t = .ok y ∧ erase y = erase x

/-- Trees that mean values one by one are built into such values. -/
theorem mapM_means {α : Type} {build : Tree → Built α} {erase : α → α} {xs : List α}
    {ts : List Tree} (h : List.Forall₂ (Means build erase) xs ts) :
    ∃ ys, ts.mapM build = .ok ys ∧ ys.map erase = xs.map erase := by
  induction h with
  | nil => exact ⟨[], rfl, rfl⟩
  | cons hfirst _ ih =>
    obtain ⟨y, hy, herase⟩ := hfirst
    obtain ⟨ys, hys, hmap⟩ := ih
    refine ⟨y :: ys, ?_, by rw [List.map_cons, List.map_cons, herase, hmap]⟩
    rw [List.mapM_cons, hy, hys]
    rfl

/-- The leaf of a word. -/
def IsLeaf (rule : Rule) (word : List Char) (t : Tree) : Prop :=
  ∃ start, t = .node rule (String.ofList word) start []

/-- A leaf is read as the text it has. -/
theorem IsLeaf.textOf {rule : Rule} {s : String} {t : Tree} (h : IsLeaf rule s.toList t)
    (expected : Part) : t.textOf rule expected = .ok s := by
  obtain ⟨start, rfl⟩ := h
  rw [String.ofList_toList, Tree.textOf, Tree.rule, if_pos rfl, Tree.text]

/-- The node of a part that may be missing. -/
inductive MeansOption {α : Type} (means : α → Tree → Prop) : Option α → Tree → Prop where
  | absent (text : String) (start : Option Nat) :
      MeansOption means none (.node .optional text start [])
  | present {x : α} {t : Tree}
      (h : ∃ text start u, t = .node .optional text start [u] ∧ means x u) :
      MeansOption means (some x) t

/-- A part that may be missing is built as what it means, or as nothing. -/
theorem MeansOption.optional? {α : Type} {build : Tree → Built α} {erase : α → α} {x : Option α}
    {t : Tree} (h : MeansOption (Means build erase) x t) :
    ∃ y, t.optional? build = .ok y ∧ y.map erase = x.map erase := by
  cases h with
  | absent text start => exact ⟨none, rfl, rfl⟩
  | present h =>
    obtain ⟨text, start, u, rfl, y, hy, herase⟩ := h
    exact ⟨some y, by rw [Tree.optional?, hy]; rfl, by rw [Option.map_some, Option.map_some, herase]⟩

/-! ## What is meant by the nodes of each kind -/

/-- A tree that is built to a name with its type. -/
abbrev TypedName.MeantBy : TypedName → Tree → Prop :=
  Means TypedName.ofTree (TypedName.mapSpans noSpan)

/-- Whether a tree means a type annotation. -/
abbrev TypeAscription.MeantBy : TypeAscription → Tree → Prop :=
  Means TypeAscription.ofTree (TypeAscription.mapSpans noSpan)

/-- Whether a tree means a list of type parameters. -/
abbrev Generics.MeantBy : Generics → Tree → Prop :=
  Means Generics.ofTree (Generics.mapSpans noSpan)

/-- Whether a tree means a path. -/
abbrev Path.MeantBy : Path → Tree → Prop := Means Path.ofTree (Path.mapSpans noSpan)

/-- Whether a tree means a comment. -/
abbrev DocComment.MeantBy : DocComment → Tree → Prop :=
  Means DocComment.ofTree (DocComment.mapSpans noSpan)

/-- A tree that is built to an expression. -/
abbrev Expression.MeantBy : Expression → Tree → Prop :=
  Means Expression.ofTree (Expression.mapSpans noSpan)

/-- A call has no span of its own: it gets the one of the expression. -/
abbrev Call.MeantBy (c : Call) (t : Tree) : Prop :=
  ∀ span, Means (fun u => Call.ofTree u span) (Call.mapSpans noSpan) c t

/-- Whether a tree means an operand. -/
abbrev Operand.MeantBy : Operand → Tree → Prop := Means Operand.ofTree (Operand.mapSpans noSpan)

/-- Whether a tree means a block. -/
abbrev Block.MeantBy : Block → Tree → Prop := Means Block.ofTree (Block.mapSpans noSpan)

/-- Whether a tree means a literal. -/
abbrev Literal.MeantBy : Literal → Tree → Prop := Means Literal.ofTree (Literal.mapSpans noSpan)

/-- Whether a tree means a field of an object. -/
abbrev Field.MeantBy : Field → Tree → Prop := Means Field.ofTree (Field.mapSpans noSpan)

/-- Whether a tree means an item. -/
abbrev Item.MeantBy : Item → Tree → Prop := Means Item.ofTree (Item.mapSpans noSpan)

/-- Whether a tree means a statement. -/
abbrev Statement.MeantBy : Statement → Tree → Prop :=
  Means Statement.ofTree (Statement.mapSpans noSpan)

/-- Whether a tree means a definition. -/
abbrev Definition.MeantBy : Definition → Tree → Prop :=
  Means Definition.ofTree (Definition.mapSpans noSpan)

/-- Whether a tree means a parameter. -/
abbrev Parameter.MeantBy : Parameter → Tree → Prop :=
  Means Parameter.ofTree (Parameter.mapSpans noSpan)

/-- Whether a tree means the body of a definition. -/
abbrev Binding.MeantBy : Binding → Tree → Prop := Means Binding.ofTree (Binding.mapSpans noSpan)

/-- Whether a tree means an element of a program. -/
abbrev Element.MeantBy : Element → Tree → Prop := Means Element.ofTree (Element.mapSpans noSpan)

variable {text : String} {start : Option Nat} {ts : List Tree} {t u : Tree} {span : Option Span}

/-! ## Names -/

/-- Leaves with names are built into the names. -/
theorem names_built {ss : List String} (h : List.Forall₂ (fun s t => IsLeaf .name s.toList t) ss ts) :
    ts.mapM Tree.nameText = .ok ss := by
  induction h with
  | nil => rfl
  | cons hfirst _ ih =>
    have hname : Tree.nameText _ = .ok _ := hfirst.textOf .name
    rw [List.mapM_cons, hname, ih]
    rfl

/-- The node of at least one name means the path of the names. -/
theorem path_means {s : String} {ss : List String}
    (h : List.Forall₂ (fun s t => IsLeaf .name s.toList t) (s :: ss) ts) :
    Path.MeantBy ⟨s :: ss, span⟩ (.node .path text start ts) := by
  refine ⟨⟨s :: ss, some (Tree.node .path text start ts).span⟩, ?_, by simp [Path.mapSpans]⟩
  cases h with
  | cons hfirst hmore =>
    rw [Path.ofTree, names_built (.cons hfirst hmore)]
    rfl

/-- The node of a type's name means the annotation. -/
theorem typeAscription_means {type : String} (h : IsLeaf .name type.toList t) :
    TypeAscription.MeantBy ⟨type, span⟩ (.node .typeAscription text start [t]) := by
  refine ⟨⟨type, some (Tree.node .typeAscription text start [t]).span⟩, ?_,
    by simp [TypeAscription.mapSpans]⟩
  have hname : t.nameText = .ok type := h.textOf .name
  rw [TypeAscription.ofTree, hname]
  rfl

/-- The node of a name and of an annotation, if there is one, means the name with its type. -/
theorem typedName_means {name : String} {type : Option TypeAscription}
    (h : IsLeaf .name name.toList t) (htype : MeansOption TypeAscription.MeantBy type u) :
    TypedName.MeantBy ⟨name, type, span⟩ (.node .typedName text start [t, u]) := by
  obtain ⟨a, ha, herase⟩ := htype.optional?
  refine ⟨⟨name, a, some (Tree.node .typedName text start [t, u]).span⟩, ?_, ?_⟩
  · have hname : t.nameText = .ok name := h.textOf .name
    rw [TypedName.ofTree, hname, ok_bind, ha]
    rfl
  · simp [TypedName.mapSpans, herase]

/-- The node of names means the type parameters of these names. -/
theorem generics_means {names : List String}
    (h : List.Forall₂ (fun s t => IsLeaf .name s.toList t) names ts) :
    Generics.MeantBy ⟨names, span⟩ (.node .generics text start ts) := by
  refine ⟨⟨names, some (Tree.node .generics text start ts).span⟩, ?_, by simp [Generics.mapSpans]⟩
  rw [Generics.ofTree, names_built h]
  rfl

/-- A comment is built without the two signs in front of it. -/
theorem docComment_means {content : String}
    (h : IsLeaf .docComment ('#' :: '#' :: content.toList) t) :
    DocComment.MeantBy ⟨content, span⟩ t := by
  obtain ⟨start, rfl⟩ := h
  refine ⟨⟨content, some (Tree.node .docComment
    (String.ofList ('#' :: '#' :: content.toList)) start []).span⟩, ?_, by simp [DocComment.mapSpans]⟩
  rw [DocComment.ofTree, String.toList_ofList]
  exact congrArg Except.ok (congrArg (DocComment.mk · _) String.ofList_toList)

/-! ## Literals -/

/-- The rule of the integers of a base. -/
def Base.rule : Base → Rule
  | decimal => .decimalLiteral
  | binary => .binaryLiteral
  | hexadecimal => .hexLiteral
  | octal => .octalLiteral

/-- A literal of one word is built from the word alone. -/
theorem Literal.ofTree_leaf {rule : Rule} (h : rule.form?.isSome = true) :
    Literal.ofTree (.node rule text start []) = Literal.ofWord (.node rule text start []) := by
  cases rule <;> first | rfl | cases h

/-- A string is built without its quotes. -/
theorem string_means {content : String}
    (h : IsLeaf .stringLiteral ('"' :: content.toList ++ ['"']) t) :
    Literal.MeantBy (.string content span) t := by
  obtain ⟨start, rfl⟩ := h
  refine ⟨.string content (Tree.node .stringLiteral
    (String.ofList ('"' :: content.toList ++ ['"'])) start []).span, ?_,
    by rw [Literal.mapSpans, Literal.mapSpans, bind_noSpan, bind_noSpan]⟩
  rw [Literal.ofTree_leaf rfl, Literal.ofWord, Tree.rule, Tree.text, unquoted?_quotes,
    String.ofList_toList]

/-- An integer is built as its digits, in the base that its rule tells. -/
theorem int_means {digits : String} {base : Base} (h : IsLeaf base.rule digits.toList t) :
    Literal.MeantBy (.int digits base span) t := by
  obtain ⟨start, rfl⟩ := h
  rw [String.ofList_toList]
  refine ⟨.int digits base (Tree.node base.rule digits start []).span, ?_,
    by rw [Literal.mapSpans, Literal.mapSpans, bind_noSpan, bind_noSpan]⟩
  cases base <;> rfl

/-- A float is built as the value that its text is read as. -/
theorem float_means {word : List Char} {value : Binary32}
    (hvalue : floatValue? (String.ofList word) = some value) (h : IsLeaf .floatLiteral word t) :
    Literal.MeantBy (.float value span) t := by
  obtain ⟨start, rfl⟩ := h
  refine ⟨.float value (Tree.node .floatLiteral (String.ofList word) start []).span, ?_,
    by rw [Literal.mapSpans, Literal.mapSpans, bind_noSpan, bind_noSpan]⟩
  rw [Literal.ofTree_leaf rfl, Literal.ofWord, Tree.rule, Tree.text, hvalue]

/-- A boolean is built as which of the two words it is. -/
theorem boolean_means {value : Bool}
    (h : IsLeaf .booleanLiteral (if value then "@true" else "@false").toList t) :
    Literal.MeantBy (.boolean value span) t := by
  obtain ⟨start, rfl⟩ := h
  rw [String.ofList_toList]
  refine ⟨.boolean value (Tree.node .booleanLiteral (if value then "@true" else "@false") start
    []).span, ?_, by rw [Literal.mapSpans, Literal.mapSpans, bind_noSpan, bind_noSpan]⟩
  cases value <;> rfl

/-- The node of elements means the array of what they mean. -/
theorem array_means {elements : List Expression}
    (h : List.Forall₂ Expression.MeantBy elements ts) :
    Literal.MeantBy (.array elements span) (.node .arrayLiteral text start ts) := by
  obtain ⟨es, hes, herase⟩ := mapM_means h
  refine ⟨.array es (Tree.node .arrayLiteral text start ts).span, ?_, ?_⟩
  · rw [Literal.ofTree, expressionsOfTrees_eq_mapM, hes]
    rfl
  · simp [Literal.mapSpans, herase]

/-- The node of elements means the tuple of what they mean. -/
theorem tuple_means {elements : List Expression}
    (h : List.Forall₂ Expression.MeantBy elements ts) :
    Literal.MeantBy (.tuple elements span) (.node .tupleLiteral text start ts) := by
  obtain ⟨es, hes, herase⟩ := mapM_means h
  refine ⟨.tuple es (Tree.node .tupleLiteral text start ts).span, ?_, ?_⟩
  · rw [Literal.ofTree, expressionsOfTrees_eq_mapM, hes]
    rfl
  · simp [Literal.mapSpans, herase]

/-- The node of fields means the object of what they mean. -/
theorem object_means {fields : List Field} (h : List.Forall₂ Field.MeantBy fields ts) :
    Literal.MeantBy (.object fields span) (.node .objectLiteral text start ts) := by
  obtain ⟨xs, hxs, herase⟩ := mapM_means h
  refine ⟨.object xs (Tree.node .objectLiteral text start ts).span, ?_, ?_⟩
  · rw [Literal.ofTree, fieldsOfTrees_eq_mapM, hxs]
    rfl
  · simp [Literal.mapSpans, herase]

/-- The node of a key and a value means the field. -/
theorem field_means {key : TypedName} {value : Expression} (hkey : key.MeantBy t)
    (hvalue : value.MeantBy u) : Field.MeantBy ⟨key, value, span⟩ (.node .field text start [t, u]) := by
  obtain ⟨name, hname, hnameErase⟩ := hkey
  obtain ⟨e, he, herase⟩ := hvalue
  refine ⟨⟨name, e, some (Tree.node .field text start [t, u]).span⟩, ?_, ?_⟩
  · have hspine : Expression.ofSpine u [] = .ok e := he
    rw [Field.ofTree, hname, ok_bind, hspine]
    rfl
  · simp [Field.mapSpans, hnameErase, herase]

/-! ## Operands -/

/-- The node around a literal means the literal as an operand. -/
theorem literalOperand_means {v : Literal} (h : v.MeantBy t) :
    Operand.MeantBy (.literal v) (.node .literalOperand text start [t]) := by
  obtain ⟨w, hw, herase⟩ := h
  refine ⟨.literal w, ?_, by rw [Operand.mapSpans, Operand.mapSpans, herase]⟩
  rw [Operand.ofTree, hw]
  rfl

/-- The node around a path means the path as an operand. -/
theorem pathOperand_means {p : Path} (h : p.MeantBy t) :
    Operand.MeantBy (.path p) (.node .pathOperand text start [t]) := by
  obtain ⟨q, hq, herase⟩ := h
  refine ⟨.path q, ?_, by rw [Operand.mapSpans, Operand.mapSpans, herase]⟩
  rw [Operand.ofTree, hq]
  rfl

/-- The node around a block means the block as an operand. -/
theorem blockOperand_means {b : Block} (h : b.MeantBy t) :
    Operand.MeantBy (.block b) (.node .blockOperand text start [t]) := by
  obtain ⟨b', hb, herase⟩ := h
  refine ⟨.block b', ?_, by rw [Operand.mapSpans, Operand.mapSpans, herase]⟩
  rw [Operand.ofTree, hb]
  rfl

/-- The node around an expression in parentheses means the group. -/
theorem groupOperand_means {inner : Expression} (h : inner.MeantBy t) :
    Operand.MeantBy (.group inner) (.node .groupOperand text start [t]) := by
  obtain ⟨e, he, herase⟩ := h
  refine ⟨.group e, ?_, by rw [Operand.mapSpans, Operand.mapSpans, herase]⟩
  have hspine : Expression.ofSpine t [] = .ok e := he
  rw [Operand.ofTree, hspine]
  rfl

/-- The node of items means the block of what they mean. -/
theorem block_means {items : List Item} (h : List.Forall₂ Item.MeantBy items ts) :
    Block.MeantBy ⟨items, span⟩ (.node .block text start ts) := by
  obtain ⟨is, his, herase⟩ := mapM_means h
  refine ⟨⟨is, some (Tree.node .block text start ts).span⟩, ?_, ?_⟩
  · rw [Block.ofTree, itemsOfTrees_eq_mapM, his]
    rfl
  · simp [Block.mapSpans, herase]

/-! ## Expressions -/

/-- The node around an operand means the operand as an expression. -/
theorem operandExpression_means {v : Operand} (h : v.MeantBy t) :
    Expression.MeantBy (.operand v) (.node .operandExpression text start [t]) := by
  obtain ⟨w, hw, herase⟩ := h
  refine ⟨.operand w, ?_, by rw [Expression.mapSpans, Expression.mapSpans, herase]⟩
  rw [Expression.ofTree, Expression.ofSpine, hw]
  rfl

/-- The node around a call means the call as an expression. -/
theorem callExpression_means {c : Call} (h : c.MeantBy t) :
    Expression.MeantBy (.call c) (.node .callExpression text start [t]) := by
  obtain ⟨d, hd, herase⟩ := h (Tree.node .callExpression text start [t]).span
  refine ⟨.call d, ?_, by rw [Expression.mapSpans, Expression.mapSpans, herase]⟩
  have hcall : Call.ofTree t _ = .ok d := hd
  rw [Expression.ofTree, Expression.ofSpine, hcall]
  rfl

/-- The node of two sides with an operator between them means the operation. -/
theorem binaryExpression_means {left : Expression} {operator : String} {right : Operand} {o : Tree}
    (hleft : left.MeantBy t) (hoperator : IsLeaf .operator operator.toList o)
    (hright : right.MeantBy u) :
    Expression.MeantBy (.binary left operator right span)
      (.node .binaryExpression text start [t, o, u]) := by
  obtain ⟨e, he, hleftErase⟩ := hleft
  obtain ⟨v, hv, hrightErase⟩ := hright
  refine ⟨.binary e operator v (Tree.node .binaryExpression text start [t, o, u]).span, ?_, ?_⟩
  · rw [Expression.ofTree_binary, he, ok_bind, hoperator.textOf .operator, ok_bind, hv]
    rfl
  · simp [Expression.mapSpans, hleftErase, hrightErase]

/-! ## Calls -/

/-- The node of arguments is built into what they mean. -/
theorem arguments_built {es : List Expression} (h : List.Forall₂ Expression.MeantBy es ts) :
    ∃ es', argumentsOfTree (.node .arguments text start ts) = .ok es' ∧
      es'.map (Expression.mapSpans noSpan) = es.map (Expression.mapSpans noSpan) := by
  rw [argumentsOfTree, expressionsOfTrees_eq_mapM]
  exact mapM_means h

/-- The node of a keyword and arguments means the call of a builtin function. -/
theorem builtinCall_means {keyword : String} {es : List Expression}
    (hkeyword : IsLeaf .keyword keyword.toList t)
    (hargs : ∃ text start ts, u = .node .arguments text start ts ∧
      List.Forall₂ Expression.MeantBy es ts) :
    Call.MeantBy ⟨.builtin keyword, es, span⟩ (.node .builtinCall text start [t, u]) := by
  obtain ⟨_, _, ts, rfl, hall⟩ := hargs
  obtain ⟨es', hes, herase⟩ := arguments_built hall
  intro whole
  refine ⟨⟨.builtin keyword, es', some whole⟩, ?_, ?_⟩
  · have htext : t.keywordText = .ok keyword := hkeyword.textOf .keyword
    change Call.ofTree _ whole = _
    rw [Call.ofTree, hes, ok_bind, htext]
    rfl
  · simp [Call.mapSpans, Callee.mapSpans, herase]

/-- The node of a path and arguments means the call of a function of the program. -/
theorem userCall_means {p : Path} {es : List Expression} (hpath : p.MeantBy t)
    (hargs : ∃ text start ts, u = .node .arguments text start ts ∧
      List.Forall₂ Expression.MeantBy es ts) :
    Call.MeantBy ⟨.user p, es, span⟩ (.node .userCall text start [t, u]) := by
  obtain ⟨_, _, ts, rfl, hall⟩ := hargs
  obtain ⟨es', hes, herase⟩ := arguments_built hall
  obtain ⟨q, hq, hpathErase⟩ := hpath
  intro whole
  refine ⟨⟨.user q, es', some whole⟩, ?_, ?_⟩
  · change Call.ofTree _ whole = _
    rw [Call.ofTree, hes, ok_bind, hq]
    rfl
  · simp [Call.mapSpans, Callee.mapSpans, herase, hpathErase]

/-! ## Items and definitions -/

/-- The node around an expression means the expression as an item. -/
theorem expressionItem_means {e : Expression} (h : e.MeantBy t) :
    Item.MeantBy (.expression e) (.node .expressionItem text start [t]) := by
  obtain ⟨e', he, herase⟩ := h
  refine ⟨.expression e', ?_, by rw [Item.mapSpans, Item.mapSpans, herase]⟩
  have hspine : Expression.ofSpine t [] = .ok e' := he
  rw [Item.ofTree, hspine]
  rfl

/-- The node around a statement means the statement as an item. -/
theorem statementItem_means {s : Statement} (h : s.MeantBy t) :
    Item.MeantBy (.statement s) (.node .statementItem text start [t]) := by
  obtain ⟨s', hs, herase⟩ := h
  refine ⟨.statement s', ?_, by rw [Item.mapSpans, Item.mapSpans, herase]⟩
  rw [Item.ofTree, hs]
  rfl

/-- The node around a path and a value means the assignment. -/
theorem assignmentStatement_means {target : Path} {value : Expression} (htarget : target.MeantBy t)
    (hvalue : value.MeantBy u) {text' : String} {start' : Option Nat} :
    Statement.MeantBy (.assignment target value span)
      (.node .assignmentStatement text start [.node .assignment text' start' [t, u]]) := by
  obtain ⟨p, hp, htargetErase⟩ := htarget
  obtain ⟨e, he, herase⟩ := hvalue
  refine ⟨.assignment p e (Tree.node .assignment text' start' [t, u]).span, ?_, ?_⟩
  · have hspine : Expression.ofSpine u [] = .ok e := he
    rw [Statement.ofTree, assignmentOfTree, hp, ok_bind, hspine]
    rfl
  · simp [Statement.mapSpans, htargetErase, herase]

/-- The node around a definition means the definition as a statement. -/
theorem definitionStatement_means {d : Definition} (h : d.MeantBy t) :
    Statement.MeantBy (.definition d) (.node .definitionStatement text start [t]) := by
  obtain ⟨d', hd, herase⟩ := h
  refine ⟨.definition d', ?_, by rw [Statement.mapSpans, Statement.mapSpans, herase]⟩
  rw [Statement.ofTree, hd]
  rfl

/-- The node around a name with its type means the parameter of that name. -/
theorem namedParameter_means {name : TypedName} (h : name.MeantBy t) :
    Parameter.MeantBy (.named name) (.node .namedParameter text start [t]) := by
  obtain ⟨name', hname, herase⟩ := h
  refine ⟨.named name', ?_, by rw [Parameter.mapSpans, Parameter.mapSpans, herase]⟩
  rw [Parameter.ofTree, hname]
  rfl

/-- The node around a literal means the parameter that is a pattern. -/
theorem literalParameter_means {v : Literal} (h : v.MeantBy t) :
    Parameter.MeantBy (.pattern v) (.node .literalParameter text start [t]) := by
  obtain ⟨w, hw, herase⟩ := h
  refine ⟨.pattern w, ?_, by rw [Parameter.mapSpans, Parameter.mapSpans, herase]⟩
  rw [Parameter.ofTree, hw]
  rfl

/-- A body that is written as an operand. -/
theorem operandBinding_means {body : Operand} (h : Expression.MeantBy (.operand body) t) :
    Binding.MeantBy ⟨body, span⟩ (.node .binding text start [t]) := by
  obtain ⟨e, he, herase⟩ := h
  cases e with
  | operand v =>
    rw [Expression.mapSpans, Expression.mapSpans, Expression.operand.injEq] at herase
    refine ⟨⟨v, some (Tree.node .binding text start [t]).span⟩, ?_,
      by simp [Binding.mapSpans, herase]⟩
    have hspine : Expression.ofSpine t [] = .ok (.operand v) := he
    rw [Binding.ofTree, hspine]
    rfl
  | binary => simp [Expression.mapSpans] at herase
  | call => simp [Expression.mapSpans] at herase

/-- A body that is written without the parentheses of its group. -/
theorem bareBinding_means {inner : Expression} (hinner : inner.isOperand = false)
    (h : inner.MeantBy t) : Binding.MeantBy ⟨.group inner, span⟩ (.node .binding text start [t]) := by
  obtain ⟨e, he, herase⟩ := h
  refine ⟨⟨.group e, some (Tree.node .binding text start [t]).span⟩, ?_,
    by simp [Binding.mapSpans, Operand.mapSpans, herase]⟩
  have hspine : Expression.ofSpine t [] = .ok e := he
  rw [Binding.ofTree, hspine, ok_bind]
  cases e with
  | operand v =>
    exfalso
    cases inner with
    | operand w => cases hinner
    | binary => simp [Expression.mapSpans] at herase
    | call => simp [Expression.mapSpans] at herase
  | binary => rfl
  | call => rfl

/-- The body of a definition is built as what it means, or as nothing. -/
theorem MeansOption.bindingOfTree? {b : Option Binding} (h : MeansOption Binding.MeantBy b t) :
    ∃ b', bindingOfTree? t = .ok b' ∧
      b'.map (Binding.mapSpans noSpan) = b.map (Binding.mapSpans noSpan) := by
  cases h with
  | absent text start => exact ⟨none, rfl, rfl⟩
  | present h =>
    obtain ⟨text, start, u, rfl, y, hy, herase⟩ := h
    refine ⟨some y, ?_, by rw [Option.map_some, Option.map_some, herase]⟩
    rw [Chainlet.bindingOfTree?, hy]
    rfl

/-- The node of the five parts of a definition means the definition. -/
theorem definition_means {keyword : String} {name : TypedName} {generics : Option Generics}
    {parameters : List Parameter} {binding : Option Binding} {word label types inputs body : Tree}
    (hkeyword : IsLeaf .keyword keyword.toList word) (hname : name.MeantBy label)
    (hgenerics : MeansOption Generics.MeantBy generics types)
    (hparameters : ∃ text start ts, inputs = .node .parameters text start ts ∧
      List.Forall₂ Parameter.MeantBy parameters ts)
    (hbinding : MeansOption Binding.MeantBy binding body) :
    Definition.MeantBy ⟨keyword, name, generics, parameters, binding, span⟩
      (.node .definition text start [word, label, types, inputs, body]) := by
  have htext : word.keywordText = .ok keyword := hkeyword.textOf .keyword
  obtain ⟨name', hname', hnameErase⟩ := hname
  obtain ⟨generics', hgenerics', hgenericsErase⟩ := hgenerics.optional?
  obtain ⟨text', start', ts, rfl, hall⟩ := hparameters
  obtain ⟨parameters', hparameters', hparametersErase⟩ := mapM_means hall
  obtain ⟨binding', hbinding', hbindingErase⟩ := hbinding.bindingOfTree?
  refine ⟨⟨keyword, name', generics', parameters', binding', some (Tree.node .definition text start
    [word, label, types, .node .parameters text' start' ts, body]).span⟩, ?_, ?_⟩
  · rw [Definition.ofTree, htext, ok_bind, hname', ok_bind, hgenerics', ok_bind, parametersOfTree,
      parametersOfTrees_eq_mapM, hparameters', ok_bind, hbinding']
    rfl
  · simp [Definition.mapSpans, hnameErase, hgenericsErase, hparametersErase, hbindingErase]

/-! ## Programs -/

/-- The node around an item means the item as an element. -/
theorem itemElement_means {i : Item} (h : i.MeantBy t) :
    Element.MeantBy (.item i) (.node .itemElement text start [t]) := by
  obtain ⟨j, hj, herase⟩ := h
  refine ⟨.item j, ?_, by rw [Element.mapSpans, Element.mapSpans, herase]⟩
  rw [Element.ofTree, hj]
  rfl

/-- The node around a comment means the comment as an element. -/
theorem docElement_means {d : DocComment} (h : d.MeantBy t) :
    Element.MeantBy (.docComment d) (.node .docElement text start [t]) := by
  obtain ⟨d', hd, herase⟩ := h
  refine ⟨.docComment d', ?_, by rw [Element.mapSpans, Element.mapSpans, herase]⟩
  rw [Element.ofTree, hd]
  rfl

/-- **The node of elements means the program of what they mean.** -/
theorem program_means {p : Program} (h : List.Forall₂ Element.MeantBy p.elements ts) :
    ∃ q, Program.ofTree (.node .program text start ts) = .ok q ∧ q.eraseSpans = p.eraseSpans := by
  obtain ⟨es, hes, herase⟩ := mapM_means h
  refine ⟨⟨es, some (Tree.node .program text start ts).span⟩, ?_, ?_⟩
  · rw [Program.ofTree, hes]
    rfl
  · simp [Program.eraseSpans, Program.mapSpans, herase]

end Chainlet
