import Chainlet.Program.Json
import Chainlet.Proofs.Outline.Source
import Chainlet.Proofs.Printed.Json

/-!
# Proofs/Printed/Program — the JSON of a program tells the program

Every part of a program is written as an object with all its fields, so that **two parts are written
alike only if they are the same** (`Expression.tells` and the theorems beside it).  Floats are the
exception: what is not finite is written `null`.  The floats of a source have no sign, hence at most one
of them is not finite (`Program.ofSource_plain`).
-/

namespace Chainlet

open Json (Tells ElementsTell MembersTell)

/-! ## Floats -/

namespace Binary32

variable {x y : Binary32}

/-- A finite number without a sign starts with a digit. -/
theorem head_text_of_isFinite (style : Numeral) (h : x.isFinite = true) (hx : x.isNegative = false) :
    ∃ c rest, (x.text style).toList = c :: rest ∧ c.isDigit = true := by
  obtain ⟨c, rest, htext, hc⟩ := style.decimalText_head (x.shortest style.tie)
  refine ⟨c, rest, ?_, hc⟩
  rw [text_of_isFinite style h, hx, htext]
  rfl

/-- A finite number without a sign is never printed as infinity is. -/
theorem text_ne_null (h : x.isFinite = true) (hx : x.isNegative = false) :
    x.text jsonNumeral ≠ (ofMagnitude false infinite).text jsonNumeral := by
  intro heq
  obtain ⟨c, rest, htext, hc⟩ := head_text_of_isFinite jsonNumeral h hx
  rw [heq] at htext
  have hnull : ((ofMagnitude false infinite).text jsonNumeral).toList = 'n' :: ['u', 'l', 'l'] := by
    decide
  rw [hnull] at htext
  obtain ⟨rfl, -⟩ := List.cons.inj htext
  cases hc

/-- **The text of a number without a sign tells the number.** -/
theorem text_inj_of_plain (hx : x.Plain) (hy : y.Plain)
    (h : x.text jsonNumeral = y.text jsonNumeral) : x = y := by
  have hxinf := isFinite_or_eq hx.2
  have hyinf := isFinite_or_eq hy.2
  rw [hx.1] at hxinf
  rw [hy.1] at hyinf
  obtain hxfinite | rfl := hxinf <;> obtain hyfinite | rfl := hyinf
  · exact text_inj jsonNumeral hxfinite hyfinite h
  · exact absurd h (text_ne_null hxfinite hx.1)
  · exact absurd h.symm (text_ne_null hyfinite hy.1)
  · rfl

/-- The texts of two floats without a sign are the same only if the floats are. -/
theorem tells (hx : x.Plain) (hy : y.Plain) :
    (Json.number (x.text jsonNumeral)).Tells (.number (y.text jsonNumeral)) (x = y) :=
  (Tells.number (text_isMark rfl rfl rfl x) (text_isMark rfl rfl rfl y)).imp (text_inj_of_plain hx hy)

end Binary32

open Outline (plain_node allPlain_cons allPlain_append)

/-! ## Parts without expressions -/

/-- The text of a span tells its ends. -/
theorem Span.tells (a b : Span) : a.toJson.Tells b.toJson (a = b) :=
  (Tells.object (.cons (.nat a.start b.start) (.cons (.nat a.stop b.stop) .nil))).imp
    fun ⟨hstart, hstop, _⟩ => by
      cases a
      cases b
      cases hstart
      cases hstop
      rfl

/-- The last member of a node tells whether it has a span, and which. -/
theorem Json.MembersTell.span (s t : Option Span) :
    MembersTell [spanMember s] [spanMember t] (s = t) :=
  MembersTell.imp (.cons (.option (fun _ => rfl) Span.tells s t) .nil) And.left

/-- The text of a type annotation tells the type and the span. -/
theorem TypeAscription.tells (a b : TypeAscription) : a.toJson.Tells b.toJson (a = b) :=
  Tells.imp (.object (.cons (.string _ _) (.span _ _))) fun ⟨htype, hspan⟩ => by
    cases a
    cases b
    cases htype
    cases hspan
    rfl

/-- The text of a name tells its type, if it has one. -/
theorem TypedName.tells (a b : TypedName) : a.toJson.Tells b.toJson (a = b) :=
  Tells.imp (.object (.cons (.string _ _)
    (.cons (.option (fun _ => rfl) TypeAscription.tells _ _) (.span _ _))))
    fun ⟨hname, htype, hspan⟩ => by
      cases a
      cases b
      cases hname
      cases htype
      cases hspan
      rfl

/-- The text of type parameters tells their names in order. -/
theorem Generics.tells (a b : Generics) : a.toJson.Tells b.toJson (a = b) :=
  Tells.imp (.object (.cons (.array (.map .string _ _)) (.span _ _))) fun ⟨hnames, hspan⟩ => by
    cases a
    cases b
    cases hnames
    cases hspan
    rfl

/-- The text of a path tells its segments, which stand apart in it. -/
theorem Path.tells (a b : Path) : a.toJson.Tells b.toJson (a = b) :=
  Tells.imp (.object (.cons (.array (.map .string _ _)) (.span _ _))) fun ⟨hsegments, hspan⟩ => by
    cases a
    cases b
    cases hsegments
    cases hspan
    rfl

/-- The text of a function tells a keyword from a path. -/
theorem Callee.tells : (a b : Callee) → a.toJson.Tells b.toJson (a = b)
  | .builtin k, .builtin l => Tells.imp (.tagged (.string k l)) (congrArg builtin)
  | .user p, .user q => Tells.imp (.tagged (p.tells q)) (congrArg user)
  | .builtin _, .user _ => .tagged_ne (by decide)
  | .user _, .builtin _ => .tagged_ne (by decide)

/-- The bases of numbers have different names. -/
theorem Base.label_inj {a b : Base} (h : a.label = b.label) : a = b := by
  cases a <;> cases b <;> first | rfl | exact absurd h (by decide)

/-! ## Parts with expressions -/

mutual

/-- The text of an expression tells the expression, whatever stands behind it. -/
theorem Expression.tells (a b : Expression) (ha : Outline.AllPlain a.outlines)
    (hb : Outline.AllPlain b.outlines) : a.toJson.Tells b.toJson (a = b) := by
  cases a with
  | binary left operator right span =>
    cases b with
    | binary left' operator' right' span' =>
      simp only [Expression.outlines, allPlain_cons, plain_node, allPlain_append] at ha hb
      refine Tells.imp (.tagged (.object (.cons (left.tells left' ha.1.2.1 hb.1.2.1)
        (.cons (.string _ _) (.cons (right.tells right' ha.1.2.2 hb.1.2.2) (.span _ _)))))) ?_
      rintro ⟨rfl, rfl, rfl, rfl⟩
      rfl
    | _ => exact .tagged_ne (by decide)
  | call c =>
    cases b with
    | call d =>
      simp only [Expression.outlines, allPlain_cons] at ha hb
      exact Tells.imp (.tagged (c.tells d ha.1 hb.1)) (congrArg Expression.call)
    | _ => exact .tagged_ne (by decide)
  | operand v =>
    cases b with
    | operand w => exact Tells.imp (.tagged (v.tells w ha hb)) (congrArg Expression.operand)
    | _ => exact .tagged_ne (by decide)

theorem Call.tells (a b : Call) (ha : a.outline.Plain) (hb : b.outline.Plain) :
    a.toJson.Tells b.toJson (a = b) := by
  cases a with
  | mk callee arguments span =>
  cases b with
  | mk callee' arguments' span' =>
  simp only [Call.outline, plain_node, allPlain_append] at ha hb
  refine Tells.imp (.object (.cons (callee.tells callee')
    (.cons (.array (expressionsTell arguments arguments' ha.2.2 hb.2.2)) (.span _ _)))) ?_
  rintro ⟨rfl, rfl, rfl⟩
  rfl

/-- The text of an operand tells its kind by its tag, and then what it holds. -/
theorem Operand.tells (a b : Operand) (ha : Outline.AllPlain a.outlines)
    (hb : Outline.AllPlain b.outlines) : a.toJson.Tells b.toJson (a = b) := by
  cases a with
  | literal v =>
    cases b with
    | literal w =>
      simp only [Operand.outlines, allPlain_cons] at ha hb
      exact Tells.imp (.tagged (v.tells w ha.1 hb.1)) (congrArg Operand.literal)
    | _ => exact .tagged_ne (by decide)
  | path p =>
    cases b with
    | path q => exact Tells.imp (.tagged (p.tells q)) (congrArg Operand.path)
    | _ => exact .tagged_ne (by decide)
  | block c =>
    cases b with
    | block d =>
      simp only [Operand.outlines, allPlain_cons] at ha hb
      exact Tells.imp (.tagged (c.tells d ha.1 hb.1)) (congrArg Operand.block)
    | _ => exact .tagged_ne (by decide)
  | group e =>
    cases b with
    | group f => exact Tells.imp (.tagged (e.tells f ha hb)) (congrArg Operand.group)
    | _ => exact .tagged_ne (by decide)

theorem Block.tells (a b : Block) (ha : a.outline.Plain) (hb : b.outline.Plain) :
    a.toJson.Tells b.toJson (a = b) := by
  cases a with
  | mk items span =>
  cases b with
  | mk items' span' =>
  simp only [Block.outline, plain_node] at ha hb
  refine Tells.imp (.object (.cons (.array (itemsTell items items' ha.2 hb.2)) (.span _ _))) ?_
  rintro ⟨rfl, rfl⟩
  rfl

/-- The text of a literal tells its kind by its tag, and then its value or its elements. -/
theorem Literal.tells (a b : Literal) (ha : a.outline.Plain) (hb : b.outline.Plain) :
    a.toJson.Tells b.toJson (a = b) := by
  cases a with
  | array es s =>
    cases b with
    | array fs t =>
      simp only [Literal.outline, plain_node] at ha hb
      refine Tells.imp (.tagged (.object (.cons (.array (expressionsTell es fs ha.2 hb.2))
        (.span s t)))) ?_
      rintro ⟨rfl, rfl⟩
      rfl
    | _ => exact .tagged_ne (by decide)
  | object xs s =>
    cases b with
    | object ys t =>
      simp only [Literal.outline, plain_node] at ha hb
      refine Tells.imp (.tagged (.object (.cons (.array (fieldsTell xs ys ha.2 hb.2))
        (.span s t)))) ?_
      rintro ⟨rfl, rfl⟩
      rfl
    | _ => exact .tagged_ne (by decide)
  | tuple es s =>
    cases b with
    | tuple fs t =>
      simp only [Literal.outline, plain_node] at ha hb
      refine Tells.imp (.tagged (.object (.cons (.array (expressionsTell es fs ha.2 hb.2))
        (.span s t)))) ?_
      rintro ⟨rfl, rfl⟩
      rfl
    | _ => exact .tagged_ne (by decide)
  | string v s =>
    cases b with
    | string w t =>
      refine Tells.imp (.tagged (.object (.cons (.string v w) (.span s t)))) ?_
      rintro ⟨rfl, rfl⟩
      rfl
    | _ => exact .tagged_ne (by decide)
  | int v base s =>
    cases b with
    | int w base' t =>
      refine Tells.imp (.tagged (.object (.cons (.string v w)
        (.cons (.string base.label base'.label) (.span s t))))) ?_
      rintro ⟨rfl, hbase, rfl⟩
      rw [Base.label_inj hbase]
    | _ => exact .tagged_ne (by decide)
  | float v s =>
    cases b with
    | float w t =>
      simp only [Literal.outline, plain_node] at ha hb
      refine Tells.imp (.tagged (.object (.cons (Binary32.tells ha.1 hb.1) (.span s t)))) ?_
      rintro ⟨rfl, rfl⟩
      rfl
    | _ => exact .tagged_ne (by decide)
  | boolean v s =>
    cases b with
    | boolean w t =>
      refine Tells.imp (.tagged (.object (.cons (.bool v w) (.span s t)))) ?_
      rintro ⟨rfl, rfl⟩
      rfl
    | _ => exact .tagged_ne (by decide)

theorem Field.tells (a b : Field) (ha : a.outline.Plain) (hb : b.outline.Plain) :
    a.toJson.Tells b.toJson (a = b) := by
  cases a with
  | mk key value span =>
  cases b with
  | mk key' value' span' =>
  simp only [Field.outline, plain_node, allPlain_cons] at ha hb
  refine Tells.imp (.object (.cons (key.tells key')
    (.cons (value.tells value' ha.2.2 hb.2.2) (.span _ _)))) ?_
  rintro ⟨rfl, rfl, rfl⟩
  rfl

theorem Item.tells (a b : Item) (ha : Outline.AllPlain a.outlines)
    (hb : Outline.AllPlain b.outlines) : a.toJson.Tells b.toJson (a = b) := by
  cases a with
  | statement s =>
    cases b with
    | statement t =>
      simp only [Item.outlines, allPlain_cons] at ha hb
      exact Tells.imp (.tagged (s.tells t ha.1 hb.1)) (congrArg Item.statement)
    | _ => exact .tagged_ne (by decide)
  | expression e =>
    cases b with
    | expression f => exact Tells.imp (.tagged (e.tells f ha hb)) (congrArg Item.expression)
    | _ => exact .tagged_ne (by decide)

/-- The text of a statement tells an assignment from a definition. -/
theorem Statement.tells (a b : Statement) (ha : a.outline.Plain) (hb : b.outline.Plain) :
    a.toJson.Tells b.toJson (a = b) := by
  cases a with
  | assignment target value span =>
    cases b with
    | assignment target' value' span' =>
      simp only [Statement.outline, plain_node, allPlain_cons] at ha hb
      refine Tells.imp (.tagged (.object (.cons (target.tells target')
        (.cons (value.tells value' ha.2.2 hb.2.2) (.span _ _))))) ?_
      rintro ⟨rfl, rfl, rfl⟩
      rfl
    | _ => exact .tagged_ne (by decide)
  | definition d =>
    cases b with
    | definition e => exact Tells.imp (.tagged (d.tells e ha hb)) (congrArg Statement.definition)
    | _ => exact .tagged_ne (by decide)

/-- The text of a definition tells its parts, the missing ones as null. -/
theorem Definition.tells (a b : Definition) (ha : a.outline.Plain) (hb : b.outline.Plain) :
    a.toJson.Tells b.toJson (a = b) := by
  cases a with
  | mk keyword name generics parameters binding span =>
  cases b with
  | mk keyword' name' generics' parameters' binding' span' =>
  simp only [Definition.outline, plain_node, allPlain_cons, allPlain_append] at ha hb
  refine Tells.imp (.object (.cons (.string _ _) (.cons (name.tells name')
    (.cons (.option (fun _ => rfl) Generics.tells _ _)
      (.cons (.array (parametersTell parameters parameters' ha.2.2.2.1 hb.2.2.2.1))
        (.cons (bindingTells binding binding' ha.2.2.2.2 hb.2.2.2.2) (.span _ _))))))) ?_
  rintro ⟨rfl, rfl, rfl, rfl, rfl, rfl⟩
  rfl

theorem Parameter.tells (a b : Parameter) (ha : a.outline.Plain) (hb : b.outline.Plain) :
    a.toJson.Tells b.toJson (a = b) := by
  cases a with
  | named n =>
    cases b with
    | named m => exact Tells.imp (.tagged (n.tells m)) (congrArg Parameter.named)
    | _ => exact .tagged_ne (by decide)
  | pattern v =>
    cases b with
    | pattern w => exact Tells.imp (.tagged (v.tells w ha hb)) (congrArg Parameter.pattern)
    | _ => exact .tagged_ne (by decide)

theorem Binding.tells (a b : Binding) (ha : a.outline.Plain) (hb : b.outline.Plain) :
    a.toJson.Tells b.toJson (a = b) := by
  cases a with
  | mk body span =>
  cases b with
  | mk body' span' =>
  simp only [Binding.outline, plain_node] at ha hb
  refine Tells.imp (.object (.cons (body.tells body' ha.2 hb.2) (.span _ _))) ?_
  rintro ⟨rfl, rfl⟩
  rfl

/-- The text of a body tells a missing one, which is null, from any other. -/
theorem bindingTells : (a b : Option Binding) → Outline.AllPlain (bindingOutlines a) →
    Outline.AllPlain (bindingOutlines b) → (bindingJson a).Tells (bindingJson b) (a = b)
  | none, none, _, _ => Tells.imp .null fun _ => rfl
  | none, some ⟨_, _⟩, _, _ => .null_object
  | some ⟨_, _⟩, none, _, _ => .object_null
  | some a, some b, ha, hb => by
    simp only [bindingOutlines, allPlain_cons] at ha hb
    exact Tells.imp (a.tells b ha.1 hb.1) (congrArg some)

/-- The texts of the elements of a list tell the list, its end included. -/
theorem expressionsTell : (as bs : List Expression) → Outline.AllPlain (expressionsOutlines as) →
    Outline.AllPlain (expressionsOutlines bs) →
    ElementsTell (expressionsJson as) (expressionsJson bs) (as = bs)
  | [], [], _, _ => ElementsTell.imp .nil fun _ => rfl
  | [], _ :: _, _, _ => .nil_cons
  | _ :: _, [], _, _ => .cons_nil
  | a :: as, b :: bs, ha, hb => by
    simp only [expressionsOutlines, allPlain_append] at ha hb
    refine ElementsTell.imp (.cons (a.tells b ha.1 hb.1) (expressionsTell as bs ha.2 hb.2)) ?_
    rintro ⟨rfl, rfl⟩
    rfl

/-- The texts of the fields of a list tell the list. -/
theorem fieldsTell : (as bs : List Field) → Outline.AllPlain (fieldsOutlines as) →
    Outline.AllPlain (fieldsOutlines bs) → ElementsTell (fieldsJson as) (fieldsJson bs) (as = bs)
  | [], [], _, _ => ElementsTell.imp .nil fun _ => rfl
  | [], _ :: _, _, _ => .nil_cons
  | _ :: _, [], _, _ => .cons_nil
  | a :: as, b :: bs, ha, hb => by
    simp only [fieldsOutlines, allPlain_cons] at ha hb
    refine ElementsTell.imp (.cons (a.tells b ha.1 hb.1) (fieldsTell as bs ha.2 hb.2)) ?_
    rintro ⟨rfl, rfl⟩
    rfl

/-- The texts of the items of a list tell the list. -/
theorem itemsTell : (as bs : List Item) → Outline.AllPlain (itemsOutlines as) →
    Outline.AllPlain (itemsOutlines bs) → ElementsTell (itemsJson as) (itemsJson bs) (as = bs)
  | [], [], _, _ => ElementsTell.imp .nil fun _ => rfl
  | [], _ :: _, _, _ => .nil_cons
  | _ :: _, [], _, _ => .cons_nil
  | a :: as, b :: bs, ha, hb => by
    simp only [itemsOutlines, allPlain_append] at ha hb
    refine ElementsTell.imp (.cons (a.tells b ha.1 hb.1) (itemsTell as bs ha.2 hb.2)) ?_
    rintro ⟨rfl, rfl⟩
    rfl

/-- The texts of the parameters of a list tell the list. -/
theorem parametersTell : (as bs : List Parameter) → Outline.AllPlain (parametersOutlines as) →
    Outline.AllPlain (parametersOutlines bs) →
    ElementsTell (parametersJson as) (parametersJson bs) (as = bs)
  | [], [], _, _ => ElementsTell.imp .nil fun _ => rfl
  | [], _ :: _, _, _ => .nil_cons
  | _ :: _, [], _, _ => .cons_nil
  | a :: as, b :: bs, ha, hb => by
    simp only [parametersOutlines, allPlain_cons] at ha hb
    refine ElementsTell.imp (.cons (a.tells b ha.1 hb.1) (parametersTell as bs ha.2 hb.2)) ?_
    rintro ⟨rfl, rfl⟩
    rfl

end

/-! ## Programs -/

theorem DocComment.tells (a b : DocComment) : a.toJson.Tells b.toJson (a = b) :=
  Tells.imp (.object (.cons (.string _ _) (.span _ _))) fun ⟨hcontent, hspan⟩ => by
    cases a
    cases b
    cases hcontent
    cases hspan
    rfl

theorem Element.tells (a b : Element) (ha : Outline.AllPlain a.outlines)
    (hb : Outline.AllPlain b.outlines) : a.toJson.Tells b.toJson (a = b) := by
  match a, b with
  | .item i, .item j => exact Tells.imp (.tagged (i.tells j ha hb)) (congrArg item)
  | .docComment c, .docComment d => exact Tells.imp (.tagged (c.tells d)) (congrArg docComment)
  | .item _, .docComment _ => exact .tagged_ne (by decide)
  | .docComment _, .item _ => exact .tagged_ne (by decide)

/-- The texts of the elements of a program tell the elements. -/
theorem elementsTell : (as bs : List Element) →
    Outline.AllPlain (as.flatMap Element.outlines) → Outline.AllPlain (bs.flatMap Element.outlines) →
    ElementsTell (as.map Element.toJson) (bs.map Element.toJson) (as = bs)
  | [], [], _, _ => ElementsTell.imp .nil fun _ => rfl
  | [], _ :: _, _, _ => .nil_cons
  | _ :: _, [], _, _ => .cons_nil
  | a :: as, b :: bs, ha, hb => by
    rw [List.flatMap_cons, allPlain_append] at ha hb
    refine ElementsTell.imp (.cons (a.tells b ha.1 hb.1) (elementsTell as bs ha.2 hb.2)) ?_
    rintro ⟨rfl, rfl⟩
    rfl

/-- Two programs without signs are written alike only if they are the same. -/
theorem Program.tells {p q : Program} (hp : Outline.AllPlain (p.elements.flatMap Element.outlines))
    (hq : Outline.AllPlain (q.elements.flatMap Element.outlines)) : p.toJson.Tells q.toJson (p = q) :=
  Tells.imp (.object (.cons (.array (elementsTell _ _ hp hq)) (.span _ _))) fun ⟨helements, hspan⟩ => by
    cases p
    cases q
    cases helements
    cases hspan
    rfl

/-- The floats of a source have no sign. -/
theorem Program.ofSource_plain {source : String} {p : Program} (h : ofSource source = .ok p) :
    Outline.AllPlain (p.elements.flatMap Element.outlines) := by
  intro n hn
  obtain ⟨o, ho, hn⟩ := Outline.mem_nodesAll.1 hn
  obtain ⟨s, hsits⟩ := ofSource_sits h o ho
  exact hsits.plain n hn

/-- **The JSON text of the program of a source tells the program**, with all its spans. -/
theorem Program.json_text_eq_iff {source source' : String} {p q : Program}
    (hp : ofSource source = .ok p) (hq : ofSource source' = .ok q) :
    p.toJson.text = q.toJson.text ↔ p = q :=
  ⟨(tells (ofSource_plain hp) (ofSource_plain hq)).text_inj, congrArg fun p : Program => p.toJson.text⟩

/-- A float beyond all finite numbers is written `null`, and a blank behind it still shows in the
spans. -/
theorem Program.json_text_of_blank :
    ∃ p q, ofSource "1000000000000000000000000000000000000000.0;" = .ok p ∧
      ofSource "1000000000000000000000000000000000000000.0 ;" = .ok q ∧
      p.toJson.text ≠ q.toJson.text := by
  have hspan : (ofSource "1000000000000000000000000000000000000000.0;").toOption.map Program.span
      = some (some ⟨0, 43⟩) := by decide +kernel
  have hspan' : (ofSource "1000000000000000000000000000000000000000.0 ;").toOption.map Program.span
      = some (some ⟨0, 44⟩) := by decide +kernel
  cases hp : ofSource "1000000000000000000000000000000000000000.0;" with
  | error e => rw [hp] at hspan; cases hspan
  | ok p =>
    cases hq : ofSource "1000000000000000000000000000000000000000.0 ;" with
    | error e => rw [hq] at hspan'; cases hspan'
    | ok q =>
      refine ⟨p, q, rfl, rfl, fun htext => ?_⟩
      obtain rfl := (json_text_eq_iff hp hq).1 htext
      rw [hp] at hspan
      rw [hq] at hspan'
      cases hspan.symm.trans hspan'

end Chainlet
