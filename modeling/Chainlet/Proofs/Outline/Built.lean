import Chainlet.Proofs.Grammar.Anchored
import Chainlet.Proofs.Binary32.Shortest
import Chainlet.Proofs.Outline.Basic
import Chainlet.Proofs.Program.Total

/-!
# Proofs/Outline/Built — what is built from a tree has the spans and the texts of its nodes

An outline `Sits` in a span if it was made of a node of a tree inside that span, spells the text of the
node, and has all its parts inside the node in turn.  `Tree.Outlines` collects, for each part of a
program that may be built from a node, that its outlines sit in the span of the node; it is proved for
nodes from the same for their children, and so for all trees (`Tree.outlines`).
-/

namespace Chainlet

/-! ## Outlines of nodes -/

/-- An outline made of nodes of trees of a source, each inside the one above it. -/
inductive Outline.Sits (source : String) : Span → Outline → Prop where
  | node {outer : Span} {t : Tree} {content : Content} {parts : List Outline}
      (hstands : t.StandsIn source) (hplain : content.Plain) (hspells : content.Spells t.text)
      (hinside : t.span.Inside outer) (hparts : ∀ o ∈ parts, Sits source t.span o) :
      Sits source outer (.node content (some t.span) parts)

namespace Outline.Sits

variable {source : String} {s outer : Span} {o : Outline}

/-- What sits in a span sits in every wider one. -/
theorem widen (h : o.Sits source s) (hinside : s.Inside outer) : o.Sits source outer := by
  cases h with
  | node hstands hplain hspells hin hparts =>
    exact .node hstands hplain hspells (hin.trans hinside) hparts

/-- All nodes of an outline that sits stand in the source. -/
theorem stands (h : o.Sits source s) : ∀ n ∈ o.nodes, n.StandsIn source := by
  induction h with
  | node hstands _ hspells _ _ ih =>
    rw [nodes, List.forall_mem_cons]
    obtain ⟨before, after, hsource, hspan⟩ := hstands
    refine ⟨⟨before, _, after, hsource, congrArg some hspan, hspells⟩, fun n hn => ?_⟩
    obtain ⟨o, ho, hn⟩ := mem_nodesAll.1 hn
    exact ih o ho n hn

/-- Every node of an outline has a span, inside of that in which the outline sits. -/
theorem inside (h : o.Sits source s) : ∀ n ∈ o.nodes, ∃ s', n.span = some s' ∧ s'.Inside s := by
  induction h with
  | @node outer t content parts _ _ _ hinside _ ih =>
    rw [nodes, List.forall_mem_cons]
    refine ⟨⟨t.span, rfl, hinside⟩, fun n hn => ?_⟩
    obtain ⟨o, ho, hn⟩ := mem_nodesAll.1 hn
    obtain ⟨s', hs', hin⟩ := ih o ho n hn
    exact ⟨s', hs', hin.trans hinside⟩

/-- All nodes of an outline that sits enclose what is below them. -/
theorem encloses (h : o.Sits source s) : ∀ n ∈ o.nodes, ∀ m ∈ nodesAll n.parts, n.Encloses m := by
  induction h with
  | @node outer t content parts _ _ _ _ hparts ih =>
    rw [nodes, List.forall_mem_cons]
    constructor
    · intro m hm
      obtain ⟨o, ho, hm⟩ := mem_nodesAll.1 hm
      obtain ⟨s', hs', hin⟩ := (hparts o ho).inside m hm
      exact ⟨t.span, s', rfl, hs', hin⟩
    · intro n hn
      obtain ⟨o, ho, hn⟩ := mem_nodesAll.1 hn
      exact ih o ho n hn

/-- No float in the outline has a sign. -/
theorem plain (h : o.Sits source s) : o.Plain := by
  induction h with
  | node _ hplain _ _ _ ih =>
    refine plain_node.2 ⟨hplain, fun n hn => ?_⟩
    obtain ⟨o, ho, hn⟩ := mem_nodesAll.1 hn
    exact ih o ho n hn

end Outline.Sits

/-! ## Nodes to build from -/

/-- A node that has its text in the source and its children inside of it. -/
structure Tree.Fits (source : String) (t : Tree) : Prop where
  stands : t.StandsIn source
  holds : t.span.Holds t.children
  anchored : t.Anchored
  spelt : t.spelt = true

/-- Whether every node of a tree fits into the source. -/
def Tree.AllFit (source : String) (t : Tree) : Prop := ∀ u ∈ t.nodes, u.Fits source

section Fits

variable {source : String} {rule : Rule} {text : String} {start : Option Nat} {ts : List Tree}
  {t u : Tree} {content : Content} {parts : List Outline} {o : Outline}

/-- The root of a tree that fits does so. -/
theorem Tree.AllFit.self (h : t.AllFit source) : t.Fits source := by
  cases t with
  | node rule text start ts => exact (Tree.forall_mem_nodes.1 h).1

/-- A child of a tree that fits does so, all the way down. -/
theorem Tree.AllFit.child (h : t.AllFit source) (hu : u ∈ t.children) : u.AllFit source := by
  cases t with
  | node rule text start ts => exact (Tree.forall_mem_nodes.1 h).2 u hu

/-- The outline of a node. -/
theorem Tree.AllFit.sits (h : t.AllFit source) (hplain : content.Plain)
    (hspells : content.Spells t.text) (hparts : ∀ o ∈ parts, o.Sits source t.span) :
    (Outline.node content (some t.span) parts).Sits source t.span :=
  .node h.self.stands hplain hspells (.refl _) hparts

/-- What sits in a child sits in the node. -/
theorem Tree.AllFit.widen (h : t.AllFit source) (hu : u ∈ t.children) (ho : o.Sits source u.span) :
    o.Sits source t.span :=
  ho.widen (h.self.holds.inside u hu)

/-- What sits in a part that may be missing sits in the node. -/
theorem Tree.AllFit.widen_optional {inner : Tree} (h : t.AllFit source) (hu : u ∈ t.children)
    (hinner : u.children = [inner]) (ho : inner.AllFit source → o.Sits source inner.span) :
    o.Sits source t.span := by
  have hmem : inner ∈ u.children := hinner ▸ List.mem_singleton_self _
  have hfit := h.child hu
  exact h.widen hu (hfit.widen hmem (ho (hfit.child hmem)))

end Fits

/-! ## Lists that are built one by one -/

/-- What is built one by one comes from one of the trees. -/
theorem exists_of_mapM {α : Type} {build : Tree → Built α} {ts : List Tree} {as : List α}
    (h : ts.mapM build = .ok as) : ∀ a ∈ as, ∃ t ∈ ts, build t = .ok a := by
  induction ts generalizing as with
  | nil => cases h; exact List.forall_mem_nil _
  | cons t ts ih =>
    rw [List.mapM_cons] at h
    obtain ⟨first, hfirst, h⟩ := bind_eq_ok.1 h
    obtain ⟨more, hmore, h⟩ := bind_eq_ok.1 h
    cases h
    refine List.forall_mem_cons.2 ⟨⟨t, List.mem_cons_self .., hfirst⟩, fun a ha => ?_⟩
    obtain ⟨u, hu, hbuild⟩ := ih hmore a ha
    exact ⟨u, List.mem_cons_of_mem _ hu, hbuild⟩

/-- A part that may be missing is missing where its node has no child. -/
theorem Tree.optional?_eq_ok {α : Type} {build : Tree → Built α} {t : Tree} {found : Option α}
    (h : t.optional? build = .ok found) :
    t.children = [] ∧ found = none ∨ ∃ u a, t.children = [u] ∧ build u = .ok a ∧ found = some a := by
  rw [optional?.eq_def] at h
  split at h
  · cases h
    exact .inl ⟨rfl, rfl⟩
  · next text start u =>
    cases hbuild : build u with
    | error e => rw [hbuild] at h; cases h
    | ok a =>
      rw [hbuild] at h
      cases h
      exact .inr ⟨u, a, rfl, hbuild, rfl⟩
  · cases h

/-- What is read off a leaf is the text of the leaf. -/
theorem Tree.textOf_eq {rule : Rule} {expected : Part} {t : Tree} {s : String}
    (h : t.textOf rule expected = .ok s) : s = t.text := by
  rw [textOf] at h
  split at h
  · cases h; rfl
  · cases h

/-- The names of a list of leaves are their texts. -/
theorem Tree.names_eq {ts : List Tree} {names : List String} (h : ts.mapM nameText = .ok names) :
    names = ts.map text := by
  induction ts generalizing names with
  | nil => cases h; rfl
  | cons t ts ih =>
    rw [List.mapM_cons] at h
    obtain ⟨first, hfirst, h⟩ := bind_eq_ok.1 h
    obtain ⟨more, hmore, h⟩ := bind_eq_ok.1 h
    cases h
    rw [List.map_cons, textOf_eq hfirst, ih hmore]

/-! ## Parts without expressions -/

section Parts

variable {source : String} {t : Tree}

theorem TypeAscription.ofTree_sits {a : TypeAscription} (ht : t.AllFit source)
    (h : ofTree t = .ok a) : a.outline.Sits source t.span := by
  rw [ofTree.eq_def] at h
  split at h
  · next text start label =>
    obtain ⟨type, htype, h⟩ := bind_eq_ok.1 h
    cases h
    obtain ⟨_, between, hcons, htext⟩ := ht.self.anchored
    cases hcons
    refine ht.sits trivial ⟨between, ?_⟩ (List.forall_mem_nil _)
    rw [Tree.textOf_eq htype]
    exact htext
  · cases h

/-- A name sits in its node, and its type inside of it. -/
theorem TypedName.ofTree_sits {n : TypedName} (ht : t.AllFit source)
    (h : ofTree t = .ok n) : n.outline.Sits source t.span := by
  rw [ofTree.eq_def] at h
  split at h
  · next text start label type =>
    obtain ⟨name, hname, h⟩ := bind_eq_ok.1 h
    obtain ⟨ascription, hascription, h⟩ := bind_eq_ok.1 h
    cases h
    obtain ⟨_, _, more, hcons, htext, hmissing⟩ := ht.self.anchored
    cases hcons
    have htype : type ∈ (Tree.node .typedName text start [label, type]).children := by
      simp [Tree.children]
    obtain ⟨hnone, rfl⟩ | ⟨inner, a, hinner, ha, rfl⟩ := Tree.optional?_eq_ok hascription
    · obtain rfl : more = "" := hmissing hnone
      refine ht.sits trivial ⟨⟨"", ?_⟩, fun _ => ?_⟩ (List.forall_mem_nil _)
      · rw [Tree.textOf_eq hname]
        exact htext
      · rw [Tree.textOf_eq hname]
        exact htext.trans String.append_empty
    · refine ht.sits trivial ⟨⟨more, ?_⟩, fun h => ?_⟩ (List.forall_mem_singleton.2 ?_)
      · rw [Tree.textOf_eq hname]
        exact htext
      · cases h
      · exact ht.widen_optional htype hinner fun hfit => TypeAscription.ofTree_sits hfit ha
  · cases h

theorem Generics.ofTree_sits {g : Generics} (ht : t.AllFit source) (h : ofTree t = .ok g) :
    g.outline.Sits source t.span := by
  rw [ofTree.eq_def] at h
  split at h
  · obtain ⟨names, -, h⟩ := bind_eq_ok.1 h
    cases h
    exact ht.sits trivial trivial (List.forall_mem_nil _)
  · cases h

/-- A path has the text of its node, points included. -/
theorem Path.ofTree_sits {p : Path} (ht : t.AllFit source) (h : ofTree t = .ok p) :
    p.outline.Sits source t.span := by
  rw [ofTree.eq_def] at h
  split at h
  · obtain ⟨segments, hsegments, h⟩ := bind_eq_ok.1 h
    cases h
    refine ht.sits trivial ?_ (List.forall_mem_nil _)
    obtain rfl := Tree.names_eq hsegments
    exact ht.self.anchored
  · cases h

/-- A comment starts with its two signs. -/
theorem Form.exists_of_docComment {w : List Char} (h : docComment w = true) :
    ∃ cs, w = '#' :: '#' :: cs := by
  unfold docComment at h
  split at h
  · next cs => exact ⟨cs, rfl⟩
  · cases h

/-- The content of a comment is the text of its node behind the number signs. -/
theorem DocComment.ofTree_sits {d : DocComment} (ht : t.AllFit source)
    (h : ofTree t = .ok d) : d.outline.Sits source t.span := by
  rw [ofTree.eq_def] at h
  split at h
  · next text start ts =>
    obtain ⟨cs, hcs⟩ := Form.exists_of_docComment (w := text.toList) ht.self.spelt
    cases h
    refine ht.sits trivial ?_ (List.forall_mem_nil _)
    rw [hcs]
    change text = "##" ++ String.ofList cs
    rw [← String.toList_inj, hcs]
    simp
  · cases h

/-! ## Words that are literals -/

/-- A string without its quotes is the content between them. -/
theorem unquoted?_eq_some {text content : String} (h : unquoted? text = some content) :
    text = "\"" ++ content ++ "\"" := by
  unfold unquoted? at h
  split at h
  · next rest hrest =>
    split at h
    · next inside hinside =>
      cases h
      have hreverse : rest = inside.reverse ++ ['"'] := by
        rw [← List.reverse_reverse rest, hinside, List.reverse_cons]
      rw [← String.toList_inj, hrest, hreverse]
      simp
    · cases h
  · cases h

/-- Digits around a point write a number without a sign. -/
theorem plain_of_floatValue? {text : String} {value : Binary32}
    (h : Form.float text.toList = true) (hvalue : floatValue? text = some value) : value.Plain := by
  rw [← String.ofList_toList (s := text), floatValue?_eq h, Option.map_eq_some_iff] at hvalue
  obtain ⟨d, -, rfl⟩ := hvalue
  have hle : d.nearest ≤ 0x7F800000 := d.nearest_le
  have hbits : (Binary32.ofMagnitude false d.nearest).bits.toNat = d.nearest :=
    UInt32.toNat_ofNat_of_lt' (Nat.lt_of_le_of_lt hle (by decide))
  constructor
  · refine decide_eq_false fun hsign => ?_
    have hge : 0x80000000 ≤ (Binary32.ofMagnitude false d.nearest).bits.toNat := hsign
    omega
  · refine decide_eq_false ?_
    rw [Binary32.magnitude, hbits, Binary32.infinite]
    omega

/-- A literal that is one word sits in the leaf that it was read from. -/
theorem Literal.ofWord_sits {v : Literal} (ht : t.AllFit source) (h : ofWord t = .ok v) :
    v.outline.Sits source t.span := by
  have hnone : ∀ o ∈ ([] : List Outline), o.Sits source t.span := List.forall_mem_nil _
  unfold ofWord at h
  split at h
  case h_1 =>
    split at h
    · next content hcontent =>
      cases h
      exact ht.sits trivial (unquoted?_eq_some hcontent) hnone
    · cases h
  case h_6 hrule =>
    split at h
    · next value hvalue =>
      cases h
      have hform : Form.float t.text.toList = true := by
        have hspelt := ht.self.spelt
        rw [Tree.spelt, hrule] at hspelt
        exact hspelt
      exact ht.sits (plain_of_floatValue? hform hvalue) hvalue hnone
    · cases h
  case h_7 =>
    split at h
    · next htrue =>
      cases h
      exact ht.sits trivial htrue hnone
    · split at h
      · next hfalse =>
        cases h
        exact ht.sits trivial hfalse hnone
      · cases h
  case h_8 => cases h
  -- an integer keeps its text whatever its base is
  all_goals
    cases h
    exact ht.sits trivial rfl hnone

end Parts

/-! ## Parts with expressions -/

/-- What is built from a node sits in its span. -/
structure Tree.Outlines (source : String) (t : Tree) : Prop where
  fit : t.AllFit source
  expression : ∀ e, Expression.ofTree t = .ok e → ∀ o ∈ e.outlines, o.Sits source t.span
  call : ∀ span c, Call.ofTree t span = .ok c → ∃ parts, c.outline = .node .call (some span) parts ∧
    ∀ o ∈ parts, o.Sits source t.span
  arguments : ∀ es, argumentsOfTree t = .ok es → ∀ o ∈ expressionsOutlines es, o.Sits source t.span
  operand : ∀ v, Operand.ofTree t = .ok v → ∀ o ∈ v.outlines, o.Sits source t.span
  block : ∀ b, Block.ofTree t = .ok b → b.outline.Sits source t.span
  literal : ∀ v, Literal.ofTree t = .ok v → v.outline.Sits source t.span
  field : ∀ x, Field.ofTree t = .ok x → x.outline.Sits source t.span
  item : ∀ i, Item.ofTree t = .ok i → ∀ o ∈ i.outlines, o.Sits source t.span
  statement : ∀ s, Statement.ofTree t = .ok s → s.outline.Sits source t.span
  assignment : ∀ s, assignmentOfTree t = .ok s → s.outline.Sits source t.span
  definition : ∀ d, Definition.ofTree t = .ok d → d.outline.Sits source t.span
  parameters : ∀ ps, parametersOfTree t = .ok ps →
    ∀ o ∈ parametersOutlines ps, o.Sits source t.span
  parameter : ∀ p, Parameter.ofTree t = .ok p → p.outline.Sits source t.span
  bindingPart : ∀ b, bindingOfTree? t = .ok b → ∀ o ∈ bindingOutlines b, o.Sits source t.span
  binding : ∀ b, Binding.ofTree t = .ok b → b.outline.Sits source t.span

section Nodes

variable {source : String} {t : Tree} (ht : t.AllFit source)
  (hts : ∀ u ∈ t.children, u.Outlines source)

include ht hts

/-- What is built from the node of an expression sits in its span. -/
theorem Expression.ofTree_sits {e : Expression} (h : ofTree t = .ok e) :
    ∀ o ∈ e.outlines, o.Sits source t.span := by
  rw [ofTree, ofSpine.eq_def] at h
  split at h
  · next text start left operator right =>
    rw [← ofSpine, ← ofTree, ofTree_binary] at h
    obtain ⟨l, hl, h⟩ := bind_eq_ok.1 h
    obtain ⟨sign, -, h⟩ := bind_eq_ok.1 h
    obtain ⟨r, hr, h⟩ := bind_eq_ok.1 h
    cases h
    have hleft : left ∈ [left, operator, right] := by simp
    have hright : right ∈ [left, operator, right] := by simp
    rw [outlines, List.forall_mem_singleton]
    refine ht.sits trivial trivial (List.forall_mem_append.2 ⟨fun o ho => ?_, fun o ho => ?_⟩)
    · exact ht.widen hleft ((hts left hleft).expression l hl o ho)
    · exact ht.widen hright ((hts right hright).operand r hr o ho)
  · next text start inner =>
    obtain ⟨c, hc, h⟩ := bind_eq_ok.1 h
    cases h
    have hinner : inner ∈ [inner] := List.mem_singleton_self inner
    obtain ⟨parts, houtline, hparts⟩ := (hts inner hinner).call _ c hc
    rw [outlines, List.forall_mem_singleton, houtline]
    exact ht.sits trivial ht.self.anchored fun o ho => ht.widen hinner (hparts o ho)
  · next text start inner =>
    obtain ⟨v, hv, h⟩ := bind_eq_ok.1 h
    cases h
    have hinner : inner ∈ [inner] := List.mem_singleton_self inner
    rw [outlines]
    exact fun o ho => ht.widen hinner ((hts inner hinner).operand v hv o ho)
  · split at h <;> cases h

/-- The elements of a list sit in the span of its node. -/
theorem expressionsOfTrees_sits {es : List Expression} (h : expressionsOfTrees t.children = .ok es) :
    ∀ o ∈ expressionsOutlines es, o.Sits source t.span := by
  intro o ho
  obtain ⟨e, he, ho⟩ := mem_expressionsOutlines.1 ho
  rw [expressionsOfTrees_eq_mapM] at h
  obtain ⟨u, hu, hbuild⟩ := exists_of_mapM h e he
  exact ht.widen hu ((hts u hu).expression e hbuild o ho)

/-- The arguments of a call sit in the span of their list. -/
theorem argumentsOfTree_sits {es : List Expression} (h : argumentsOfTree t = .ok es) :
    ∀ o ∈ expressionsOutlines es, o.Sits source t.span := by
  rw [argumentsOfTree.eq_def] at h
  split at h
  · exact expressionsOfTrees_sits ht hts h
  · cases h

/-- A call has the span of the node around it, so only its parts sit in that of its own node. -/
theorem Call.ofTree_sits {span : Span} {c : Call} (h : ofTree t span = .ok c) :
    ∃ parts, c.outline = .node .call (some span) parts ∧ ∀ o ∈ parts, o.Sits source t.span := by
  rw [ofTree.eq_def] at h
  split at h
  · next span text start callee arguments =>
    obtain ⟨es, hes, h⟩ := bind_eq_ok.1 h
    obtain ⟨keyword, -, h⟩ := bind_eq_ok.1 h
    cases h
    have harguments : arguments ∈ [callee, arguments] := by simp
    refine ⟨_, rfl, fun o ho => ?_⟩
    exact ht.widen harguments ((hts arguments harguments).arguments es hes o ho)
  · next span text start callee arguments =>
    obtain ⟨es, hes, h⟩ := bind_eq_ok.1 h
    obtain ⟨path, hpath, h⟩ := bind_eq_ok.1 h
    cases h
    have hcallee : callee ∈ [callee, arguments] := by simp
    have harguments : arguments ∈ [callee, arguments] := by simp
    refine ⟨_, rfl, List.forall_mem_cons.2 ⟨?_, fun o ho => ?_⟩⟩
    · exact ht.widen hcallee (Path.ofTree_sits (ht.child hcallee) hpath)
    · exact ht.widen harguments ((hts arguments harguments).arguments es hes o ho)
  · cases h

/-- What is built from the node of an operand sits in its span; for a group, one level down. -/
theorem Operand.ofTree_sits {v : Operand} (h : ofTree t = .ok v) :
    ∀ o ∈ v.outlines, o.Sits source t.span := by
  rw [ofTree.eq_def] at h
  split at h
  · next text start inner =>
    obtain ⟨l, hl, h⟩ := bind_eq_ok.1 h
    cases h
    have hinner : inner ∈ [inner] := List.mem_singleton_self inner
    rw [outlines, List.forall_mem_singleton]
    exact ht.widen hinner ((hts inner hinner).literal l hl)
  · next text start inner =>
    obtain ⟨p, hp, h⟩ := bind_eq_ok.1 h
    cases h
    have hinner : inner ∈ [inner] := List.mem_singleton_self inner
    rw [outlines, List.forall_mem_singleton]
    exact ht.widen hinner (Path.ofTree_sits (ht.child hinner) hp)
  · next text start inner =>
    obtain ⟨b, hb, h⟩ := bind_eq_ok.1 h
    cases h
    have hinner : inner ∈ [inner] := List.mem_singleton_self inner
    rw [outlines, List.forall_mem_singleton]
    exact ht.widen hinner ((hts inner hinner).block b hb)
  · next text start inner =>
    obtain ⟨e, he, h⟩ := bind_eq_ok.1 h
    cases h
    have hinner : inner ∈ [inner] := List.mem_singleton_self inner
    rw [outlines]
    exact fun o ho => ht.widen hinner ((hts inner hinner).expression e he o ho)
  · cases h

theorem Block.ofTree_sits {b : Block} (h : ofTree t = .ok b) : b.outline.Sits source t.span := by
  rw [ofTree.eq_def] at h
  split at h
  · next text start ts =>
    obtain ⟨is, his, h⟩ := bind_eq_ok.1 h
    cases h
    refine ht.sits trivial trivial fun o ho => ?_
    obtain ⟨i, hi, ho⟩ := mem_itemsOutlines.1 ho
    rw [itemsOfTrees_eq_mapM] at his
    obtain ⟨u, hu, hbuild⟩ := exists_of_mapM his i hi
    exact ht.widen hu ((hts u hu).item i hbuild o ho)
  · cases h

theorem Literal.ofTree_sits {v : Literal} (h : ofTree t = .ok v) : v.outline.Sits source t.span := by
  rw [ofTree.eq_def] at h
  split at h
  · next text start ts =>
    obtain ⟨es, hes, h⟩ := bind_eq_ok.1 h
    cases h
    exact ht.sits trivial trivial (expressionsOfTrees_sits ht hts hes)
  · next text start ts =>
    obtain ⟨es, hes, h⟩ := bind_eq_ok.1 h
    cases h
    exact ht.sits trivial trivial (expressionsOfTrees_sits ht hts hes)
  · next text start ts =>
    obtain ⟨xs, hxs, h⟩ := bind_eq_ok.1 h
    cases h
    refine ht.sits trivial trivial fun o ho => ?_
    obtain ⟨x, hx, rfl⟩ := mem_fieldsOutlines.1 ho
    rw [fieldsOfTrees_eq_mapM] at hxs
    obtain ⟨u, hu, hbuild⟩ := exists_of_mapM hxs x hx
    exact ht.widen hu ((hts u hu).field x hbuild)
  · exact ofWord_sits ht h

theorem Field.ofTree_sits {x : Field} (h : ofTree t = .ok x) : x.outline.Sits source t.span := by
  rw [ofTree.eq_def] at h
  split at h
  · next text start key value =>
    obtain ⟨name, hname, h⟩ := bind_eq_ok.1 h
    obtain ⟨e, he, h⟩ := bind_eq_ok.1 h
    cases h
    have hkey : key ∈ [key, value] := by simp
    have hvalue : value ∈ [key, value] := by simp
    refine ht.sits trivial trivial (List.forall_mem_cons.2 ⟨?_, fun o ho => ?_⟩)
    · exact ht.widen hkey (TypedName.ofTree_sits (ht.child hkey) hname)
    · exact ht.widen hvalue ((hts value hvalue).expression e he o ho)
  · cases h

theorem Item.ofTree_sits {i : Item} (h : ofTree t = .ok i) :
    ∀ o ∈ i.outlines, o.Sits source t.span := by
  rw [ofTree.eq_def] at h
  split at h
  · next text start inner =>
    obtain ⟨s, hs, h⟩ := bind_eq_ok.1 h
    cases h
    have hinner : inner ∈ [inner] := List.mem_singleton_self inner
    rw [outlines, List.forall_mem_singleton]
    exact ht.widen hinner ((hts inner hinner).statement s hs)
  · next text start inner =>
    obtain ⟨e, he, h⟩ := bind_eq_ok.1 h
    cases h
    have hinner : inner ∈ [inner] := List.mem_singleton_self inner
    rw [outlines]
    exact fun o ho => ht.widen hinner ((hts inner hinner).expression e he o ho)
  · cases h

/-- A statement sits in the span of its node. -/
theorem Statement.ofTree_sits {s : Statement} (h : ofTree t = .ok s) :
    s.outline.Sits source t.span := by
  rw [ofTree.eq_def] at h
  split at h
  · next text start inner =>
    have hinner : inner ∈ [inner] := List.mem_singleton_self inner
    exact ht.widen hinner ((hts inner hinner).assignment s h)
  · next text start inner =>
    obtain ⟨d, hd, h⟩ := bind_eq_ok.1 h
    cases h
    have hinner : inner ∈ [inner] := List.mem_singleton_self inner
    rw [outline]
    exact ht.widen hinner ((hts inner hinner).definition d hd)
  · cases h

theorem assignmentOfTree_sits {s : Statement} (h : assignmentOfTree t = .ok s) :
    s.outline.Sits source t.span := by
  rw [assignmentOfTree.eq_def] at h
  split at h
  · next text start target value =>
    obtain ⟨path, hpath, h⟩ := bind_eq_ok.1 h
    obtain ⟨e, he, h⟩ := bind_eq_ok.1 h
    cases h
    have htarget : target ∈ [target, value] := by simp
    have hvalue : value ∈ [target, value] := by simp
    refine ht.sits trivial trivial (List.forall_mem_cons.2 ⟨?_, fun o ho => ?_⟩)
    · exact ht.widen htarget (Path.ofTree_sits (ht.child htarget) hpath)
    · exact ht.widen hvalue ((hts value hvalue).expression e he o ho)
  · cases h

theorem Parameter.ofTree_sits {p : Parameter} (h : ofTree t = .ok p) :
    p.outline.Sits source t.span := by
  rw [ofTree.eq_def] at h
  split at h
  · next text start inner =>
    obtain ⟨n, hn, h⟩ := bind_eq_ok.1 h
    cases h
    have hinner : inner ∈ [inner] := List.mem_singleton_self inner
    exact ht.widen hinner (TypedName.ofTree_sits (ht.child hinner) hn)
  · next text start inner =>
    obtain ⟨v, hv, h⟩ := bind_eq_ok.1 h
    cases h
    have hinner : inner ∈ [inner] := List.mem_singleton_self inner
    exact ht.widen hinner ((hts inner hinner).literal v hv)
  · cases h

theorem parametersOfTree_sits {ps : List Parameter} (h : parametersOfTree t = .ok ps) :
    ∀ o ∈ parametersOutlines ps, o.Sits source t.span := by
  rw [parametersOfTree.eq_def] at h
  split at h
  · next text start ts =>
    intro o ho
    obtain ⟨p, hp, rfl⟩ := mem_parametersOutlines.1 ho
    rw [parametersOfTrees_eq_mapM] at h
    obtain ⟨u, hu, hbuild⟩ := exists_of_mapM h p hp
    exact ht.widen hu ((hts u hu).parameter p hbuild)
  · cases h

/-- A body, if there is one, sits in the span of the node that may be empty. -/
theorem bindingOfTree?_sits {b : Option Binding} (h : bindingOfTree? t = .ok b) :
    ∀ o ∈ bindingOutlines b, o.Sits source t.span := by
  rw [bindingOfTree?.eq_def] at h
  split at h
  · cases h
    exact List.forall_mem_nil _
  · next text start inner =>
    obtain ⟨a, ha, h⟩ := bind_eq_ok.1 h
    cases h
    have hinner : inner ∈ [inner] := List.mem_singleton_self inner
    rw [bindingOutlines, List.forall_mem_singleton]
    exact ht.widen hinner ((hts inner hinner).binding a ha)
  · cases h

theorem Binding.ofTree_sits {b : Binding} (h : ofTree t = .ok b) : b.outline.Sits source t.span := by
  rw [ofTree.eq_def] at h
  split at h
  · next text start inner =>
    obtain ⟨e, he, h⟩ := bind_eq_ok.1 h
    have hinner : inner ∈ [inner] := List.mem_singleton_self inner
    -- an operand stands for itself and a group for the expression in it
    have houtline : b.outline
        = .node .composite (Tree.node .binding text start [inner]).span e.outlines := by
      cases e <;> cases h
      case operand => rw [outline, Expression.outlines]
      all_goals rw [outline, Operand.outlines]
    rw [houtline]
    exact ht.sits trivial trivial fun o ho => ht.widen hinner ((hts inner hinner).expression e he o ho)
  · cases h

/-- All parts of a definition sit in its span. -/
theorem Definition.ofTree_sits {d : Definition} (h : ofTree t = .ok d) :
    d.outline.Sits source t.span := by
  rw [ofTree.eq_def] at h
  split at h
  · next text start word label types inputs body =>
    obtain ⟨keyword, hkeyword, h⟩ := bind_eq_ok.1 h
    obtain ⟨name, hname, h⟩ := bind_eq_ok.1 h
    obtain ⟨generics, hgenerics, h⟩ := bind_eq_ok.1 h
    obtain ⟨parameters, hparameters, h⟩ := bind_eq_ok.1 h
    obtain ⟨binding, hbinding, h⟩ := bind_eq_ok.1 h
    cases h
    have hlabel : label ∈ [word, label, types, inputs, body] := by simp
    have htypes : types ∈ [word, label, types, inputs, body] := by simp
    have hinputs : inputs ∈ [word, label, types, inputs, body] := by simp
    have hbody : body ∈ [word, label, types, inputs, body] := by simp
    obtain ⟨_, _, more, hcons, htext⟩ := ht.self.anchored
    cases hcons
    refine ht.sits trivial ⟨more, ?_⟩ (List.forall_mem_cons.2 ⟨?_, List.forall_mem_append.2
      ⟨?_, List.forall_mem_append.2 ⟨fun o ho => ?_, fun o ho => ?_⟩⟩⟩)
    · rw [Tree.textOf_eq hkeyword]
      exact htext
    · exact ht.widen hlabel (TypedName.ofTree_sits (ht.child hlabel) hname)
    · obtain ⟨-, rfl⟩ | ⟨inner, g, hinner, hg, rfl⟩ := Tree.optional?_eq_ok hgenerics
      · exact List.forall_mem_nil _
      · refine List.forall_mem_singleton.2 ?_
        exact ht.widen_optional htypes hinner fun hfit => Generics.ofTree_sits hfit hg
    · exact ht.widen hinputs ((hts inputs hinputs).parameters parameters hparameters o ho)
    · exact ht.widen hbody ((hts body hbody).bindingPart binding hbinding o ho)
  · cases h

end Nodes

/-- **What is built from a node of a source has the span and the text of the node.** -/
theorem Tree.outlines {source : String} (t : Tree) (h : t.AllFit source) : t.Outlines source := by
  induction t using Tree.induction with
  | h rule text start ts ih =>
    have hts : ∀ u ∈ ts, u.Outlines source := fun u hu => ih u hu (h.child hu)
    exact {
      fit := h
      expression := fun _ => Expression.ofTree_sits h hts
      call := fun _ _ => Call.ofTree_sits h hts
      arguments := fun _ => argumentsOfTree_sits h hts
      operand := fun _ => Operand.ofTree_sits h hts
      block := fun _ => Block.ofTree_sits h hts
      literal := fun _ => Literal.ofTree_sits h hts
      field := fun _ => Field.ofTree_sits h hts
      item := fun _ => Item.ofTree_sits h hts
      statement := fun _ => Statement.ofTree_sits h hts
      assignment := fun _ => assignmentOfTree_sits h hts
      definition := fun _ => Definition.ofTree_sits h hts
      parameters := fun _ => parametersOfTree_sits h hts
      parameter := fun _ => Parameter.ofTree_sits h hts
      bindingPart := fun _ => bindingOfTree?_sits h hts
      binding := fun _ => Binding.ofTree_sits h hts }

end Chainlet
