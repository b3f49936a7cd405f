import Chainlet.Proofs.Outcome
import Chainlet.Proofs.Program.Spans
import Chainlet.Proofs.Program.Word

/-!
# Proofs/Program/Corresponds — trees of the same words are the same program

Two trees correspond if they have the same nodes and the same words, and if their spans are the same
under two maps.  They are `Twins` if one of them, and so the other, has the children and the words of
its rules.  The parts of a program without expressions in them are built from twins alike; lists are
built one by one, and **a chain of operators is built from its left part** (`Expression.ofTree_binary`).
-/

namespace Chainlet

/-- Two trees of the same nodes and words, whose spans are the same under two maps. -/
inductive Tree.Corresponds (f g : Span → Option Span) : Tree → Tree → Prop where
  | node {rule : Rule} {text text' : String} {start start' : Option Nat} {ts ts' : List Tree}
      (hword : rule.form?.isSome = true → text' = text)
      (hspan : f (Tree.node rule text start ts).span = g (Tree.node rule text' start' ts').span)
      (hchildren : List.Forall₂ (Tree.Corresponds f g) ts ts') :
      Tree.Corresponds f g (.node rule text start ts) (.node rule text' start' ts')

variable {f g : Span → Option Span}

/-- Nodes that correspond have one rule. -/
theorem Tree.Corresponds.rule_eq {t t' : Tree} (h : t.Corresponds f g t') : t'.rule = t.rule := by
  cases h
  rfl

/-- Words that correspond have one text. -/
theorem Tree.Corresponds.text_eq {t t' : Tree} (h : t.Corresponds f g t')
    (hform : t.rule.form?.isSome = true) : t'.text = t.text := by
  cases h with
  | node hword => exact hword hform

/-- Two trees that correspond, with the children and the words of their rules. -/
structure Tree.Twins (f g : Span → Option Span) (t t' : Tree) : Prop where
  conforms : t.conforms = true
  corresponds : t.Corresponds f g t'

/-- What two nodes of a rule are made of. -/
theorem Tree.Twins.node {t t' : Tree} {rule : Rule} (h : t.Twins f g t') (hrule : t.rule = rule) :
    ∃ text start ts text' start' ts', t = .node rule text start ts ∧
      t' = .node rule text' start' ts' ∧ f t.span = g t'.span ∧ rule.layout.admits ts = true ∧
      List.Forall₂ (Twins f g) ts ts' := by
  obtain ⟨hconforms, @⟨r, text, text', start, start', ts, ts', -, hspan, hchildren⟩⟩ := h
  obtain rfl : r = rule := hrule
  obtain ⟨hlayout, -, hall⟩ := conforms_iff.1 hconforms
  refine ⟨text, start, ts, text', start', ts', rfl, rfl, hspan, hlayout, ?_⟩
  exact ((List.forall₂_and_left ts ts').2 ⟨hall, hchildren⟩).imp fun _ _ ht => ⟨ht.1, ht.2⟩

/-! ## Children side by side -/

section Children

variable {R : Tree → Tree → Prop} {s s' : Slot} {ss : List Slot} {ts ts' : List Tree}

/-- Children in the first slot, and those in the others, stand side by side. -/
theorem slots_cons (h : Slot.admitsEach (s :: ss) ts = true) (hts : List.Forall₂ R ts ts') :
    ∃ t us t' us', ts = t :: us ∧ ts' = t' :: us' ∧ s.admits t = true ∧ R t t' ∧
      Slot.admitsEach ss us = true ∧ List.Forall₂ R us us' := by
  obtain ⟨t, us, rfl, hslot, hmore⟩ := Slot.admitsEach_cons_iff.1 h
  cases hts with
  | cons hfirst hrest => exact ⟨t, us, _, _, rfl, rfl, hslot, hfirst, hmore, hrest⟩

theorem slots_one (h : Slot.admitsEach [s] ts = true) (hts : List.Forall₂ R ts ts') :
    ∃ t t', ts = [t] ∧ ts' = [t'] ∧ s.admits t = true ∧ R t t' := by
  obtain ⟨t, us, t', us', rfl, rfl, hslot, ht, hnil, hus⟩ := slots_cons h hts
  obtain rfl := Slot.admitsEach_nil_iff.1 hnil
  cases hus
  exact ⟨t, t', rfl, rfl, hslot, ht⟩

theorem slots_two (h : Slot.admitsEach [s, s'] ts = true) (hts : List.Forall₂ R ts ts') :
    ∃ t u t' u', ts = [t, u] ∧ ts' = [t', u'] ∧ s.admits t = true ∧ s'.admits u = true ∧ R t t' ∧
      R u u' := by
  obtain ⟨t, us, t', us', rfl, rfl, hslot, ht, hmore, hus⟩ := slots_cons h hts
  obtain ⟨u, u', rfl, rfl, hslot', hu⟩ := slots_one hmore hus
  exact ⟨t, u, t', u', rfl, rfl, hslot, hslot', ht, hu⟩

/-- Children that all may stand at one place. -/
theorem slots_all {Q : Tree → Tree → Prop} (h : ts.all s.admits = true)
    (hts : List.Forall₂ R ts ts') (hQ : ∀ t t', s.admits t = true → R t t' → Q t t') :
    List.Forall₂ Q ts ts' := by
  induction hts with
  | nil => exact .nil
  | cons hfirst _ ih =>
    obtain ⟨hslot, hmore⟩ := (Bool.and_eq_true ..).mp h
    exact .cons (hQ _ _ hslot hfirst) (ih hmore)

end Children

/-! ## Parts without expressions -/

section Parts

variable {t t' : Tree}

/-- Words that correspond are read alike. -/
theorem Tree.textOf_agree {rule : Rule} {expected : Part} (hform : rule.form?.isSome = true)
    (hslot : (Slot.rule rule).admits t = true) (h : t.Corresponds f g t') :
    Agree id id (t.textOf rule expected) (t'.textOf rule expected) := by
  obtain rfl : t.rule = rule := beq_iff_eq.1 hslot
  rw [textOf, textOf, if_pos rfl, if_pos h.rule_eq, h.text_eq hform]
  exact agree_ok rfl

/-- Leaves with names in a list. -/
theorem Tree.names_agree {ts ts' : List Tree} (h : ts.all (Slot.rule .name).admits = true)
    (hts : List.Forall₂ (Twins f g) ts ts') :
    Agree id id (ts.mapM Tree.nameText) (ts'.mapM Tree.nameText) := by
  have hnames := agree_mapM (slots_all h hts fun _ _ hslot ht =>
    @textOf_agree f g _ _ .name .name rfl hslot ht.corresponds)
  rw [List.map_id_fun] at hnames
  exact hnames

/-- The children of a node for a part that may be missing. -/
theorem Tree.Twins.optional {rule : Rule} (h : t.Twins f g t')
    (hslot : (Slot.optional rule).admits t = true) :
    (∃ text start text' start', t = .node .optional text start [] ∧
      t' = .node .optional text' start' []) ∨
    ∃ text start u text' start' u', t = .node .optional text start [u] ∧
      t' = .node .optional text' start' [u'] ∧ u.rule = rule ∧ u.Twins f g u' := by
  rw [Slot.admits, Bool.and_eq_true, beq_iff_eq, List.all_eq_true] at hslot
  obtain ⟨text, start, ts, text', start', ts', rfl, rfl, -, hlayout, hts⟩ := h.node hslot.1
  have hlength : ts.length ≤ 1 := of_decide_eq_true hlayout
  match hts with
  | .nil => exact .inl ⟨text, start, text', start', rfl, rfl⟩
  | @List.Forall₂.cons _ _ _ u u' _ _ hu .nil =>
    exact .inr ⟨text, start, u, text', start', u', rfl, rfl,
      beq_iff_eq.1 (hslot.2 u (List.mem_singleton.2 rfl)), hu⟩
  | .cons _ (.cons _ _) => simp at hlength

/-- A part that may be missing is built if the part is. -/
theorem Tree.optional?_agree {α β : Type} {build : Tree → Built α} {m m' : α → β} {rule : Rule}
    (h : t.Twins f g t') (hslot : (Slot.optional rule).admits t = true)
    (hbuild : ∀ u u', u.rule = rule → u.Twins f g u' → Agree m m' (build u) (build u')) :
    Agree (Option.map m) (Option.map m') (t.optional? build) (t'.optional? build) := by
  obtain ⟨text, start, text', start', rfl, rfl⟩ | ⟨text, start, u, text', start', u', rfl, rfl,
    hrule, hu⟩ := h.optional hslot
  · exact agree_ok rfl
  · exact (hbuild u u' hrule hu).map fun a a' ha => congrArg some ha

/-- Type annotations of twins are built alike, but for their spans. -/
theorem TypeAscription.ofTree_agree (hrule : t.rule = .typeAscription) (h : t.Twins f g t') :
    Agree (mapSpans f) (mapSpans g) (ofTree t) (ofTree t') := by
  obtain ⟨text, start, ts, text', start', ts', rfl, rfl, hspan, hlayout, hts⟩ := h.node hrule
  obtain ⟨name, name', rfl, rfl, hname, hn⟩ := slots_one hlayout hts
  refine (Tree.textOf_agree rfl hname hn.corresponds).bind fun a a' ha => agree_ok ?_
  obtain rfl : a = a' := ha
  simp [mapSpans, hspan]

/-- Names of twins are built alike, but for their spans. -/
theorem TypedName.ofTree_agree (hslot : (Slot.rule .typedName).admits t = true)
    (h : t.Twins f g t') : Agree (mapSpans f) (mapSpans g) (ofTree t) (ofTree t') := by
  obtain ⟨text, start, ts, text', start', ts', rfl, rfl, hspan, hlayout, hts⟩ :=
    h.node (beq_iff_eq.1 hslot)
  obtain ⟨label, type, label', type', rfl, rfl, hlabel, htype, hl, ht⟩ := slots_two hlayout hts
  refine (Tree.textOf_agree rfl hlabel hl.corresponds).bind fun a a' ha => ?_
  obtain rfl : a = a' := ha
  refine (Tree.optional?_agree ht htype fun _ _ => TypeAscription.ofTree_agree).bind
    fun b b' hb => agree_ok ?_
  simp [mapSpans, hspan, hb]

theorem Generics.ofTree_agree (hrule : t.rule = .generics) (h : t.Twins f g t') :
    Agree (mapSpans f) (mapSpans g) (ofTree t) (ofTree t') := by
  obtain ⟨text, start, ts, text', start', ts', rfl, rfl, hspan, hlayout, hts⟩ := h.node hrule
  refine (Tree.names_agree hlayout hts).bind fun a a' ha => agree_ok ?_
  obtain rfl : a = a' := ha
  simp [mapSpans, hspan]

/-- Paths of twins are built alike, but for their spans. -/
theorem Path.ofTree_agree (hslot : (Slot.rule .path).admits t = true) (h : t.Twins f g t') :
    Agree (mapSpans f) (mapSpans g) (ofTree t) (ofTree t') := by
  obtain ⟨text, start, ts, text', start', ts', rfl, rfl, hspan, hlayout, hts⟩ :=
    h.node (beq_iff_eq.1 hslot)
  obtain ⟨hne, hall⟩ := (Bool.and_eq_true ..).mp hlayout
  cases hts with
  | nil => cases hne
  | cons hfirst hmore =>
    refine (Tree.names_agree hall (.cons hfirst hmore)).bind fun a a' ha => agree_ok ?_
    obtain rfl : a = a' := ha
    simp [mapSpans, hspan]

theorem DocComment.ofTree_agree (hslot : (Slot.rule .docComment).admits t = true)
    (h : t.Twins f g t') : Agree (mapSpans f) (mapSpans g) (ofTree t) (ofTree t') := by
  have hrule : t.rule = .docComment := beq_iff_eq.1 hslot
  have htext := h.corresponds.text_eq (by rw [hrule]; rfl)
  obtain ⟨text, start, ts, text', start', ts', rfl, rfl, hspan, -, -⟩ := h.node hrule
  obtain rfl : text' = text := htext
  exact agree_ok (by simp [mapSpans, hspan])

end Parts

/-! ## Words that are literals -/

/-- A literal that is a word has a value. -/
theorem Literal.ofWord_agree {t t' : Tree} (hcategory : t.rule.category = .literal)
    (hform : t.rule.form?.isSome = true) (h : t.Twins f g t') :
    Agree (mapSpans f) (mapSpans g) (ofWord t) (ofWord t') := by
  have htext := h.corresponds.text_eq hform
  generalize hrule : t.rule = r at hcategory hform
  obtain ⟨text, start, ts, text', start', ts', rfl, rfl, hspan, -, -⟩ := h.node hrule
  obtain rfl : text' = text := htext
  obtain ⟨word, rfl⟩ : ∃ word, text' = String.ofList word := ⟨text'.toList, by simp⟩
  have hspelt := (Tree.conforms_iff.1 h.conforms).2.1
  rw [Tree.spelt, Option.all_eq_true, Tree.text, String.toList_ofList] at hspelt
  change ∀ form, r.form? = some form → _ at hspelt
  cases r
  case stringLiteral =>
    obtain ⟨content, rfl⟩ := Form.string_eq (hspelt _ rfl)
    simp only [ofWord, Tree.rule, Tree.text, unquoted?_quotes]
    exact agree_ok (congrArg (Literal.string _) hspan)
  case floatLiteral =>
    obtain ⟨value, hvalue⟩ := Option.isSome_iff_exists.1 (floatValue?_isSome (hspelt _ rfl))
    simp only [ofWord, Tree.rule, Tree.text, hvalue]
    exact agree_ok (congrArg (Literal.float _) hspan)
  case booleanLiteral =>
    have hword := hspelt _ rfl
    rw [Form.boolean, Bool.or_eq_true, beq_iff_eq, beq_iff_eq] at hword
    obtain rfl | rfl := hword <;> exact agree_ok (congrArg (Literal.boolean _) hspan)
  case decimalLiteral => exact agree_ok (congrArg (Literal.int _ _) hspan)
  case binaryLiteral => exact agree_ok (congrArg (Literal.int _ _) hspan)
  case hexLiteral => exact agree_ok (congrArg (Literal.int _ _) hspan)
  case octalLiteral => exact agree_ok (congrArg (Literal.int _ _) hspan)
  case arrayLiteral => cases hform
  case objectLiteral => cases hform
  case tupleLiteral => cases hform
  all_goals cases hcategory

/-! ## Lists of parts -/

/-- The expressions of a list are built one by one. -/
theorem expressionsOfTrees_eq_mapM (ts : List Tree) :
    expressionsOfTrees ts = ts.mapM Expression.ofTree := by
  induction ts with
  | nil => rfl
  | cons t ts ih => rw [expressionsOfTrees, List.mapM_cons, ih]; rfl

theorem fieldsOfTrees_eq_mapM (ts : List Tree) : fieldsOfTrees ts = ts.mapM Field.ofTree := by
  induction ts with
  | nil => rfl
  | cons t ts ih => rw [fieldsOfTrees, List.mapM_cons, ih]

theorem itemsOfTrees_eq_mapM (ts : List Tree) : itemsOfTrees ts = ts.mapM Item.ofTree := by
  induction ts with
  | nil => rfl
  | cons t ts ih => rw [itemsOfTrees, List.mapM_cons, ih]

theorem parametersOfTrees_eq_mapM (ts : List Tree) :
    parametersOfTrees ts = ts.mapM Parameter.ofTree := by
  induction ts with
  | nil => rfl
  | cons t ts ih => rw [parametersOfTrees, List.mapM_cons, ih]

/-! ## Chains -/

/-- The links met on the way down a spine are attached to the expression at its bottom. -/
theorem Expression.ofSpine_eq (t : Tree) (links : List Link) :
    Expression.ofSpine t links = Expression.ofTree t >>= links.foldlM Link.attach := by
  induction t using Tree.induction generalizing links with
  | h rule text start ts ih =>
    rw [Expression.ofTree]
    cases rule
    case binaryExpression =>
      match ts, ih with
      | [left, operator, right], ih =>
        have hleft := ih left (by simp)
        rw [Expression.ofSpine, Expression.ofSpine, hleft, hleft]
        cases hread : Expression.ofTree left with
        | error e => rfl
        | ok e =>
          rw [ok_bind, ok_bind, List.foldlM_cons, List.foldlM_cons]
          cases hattach : Link.attach e _ <;> rfl
      | [], _ => rfl
      | [_], _ => rfl
      | [_, _], _ => rfl
      | _ :: _ :: _ :: _ :: _, _ => rfl
    case callExpression =>
      match ts with
      | [c] =>
        rw [Expression.ofSpine, Expression.ofSpine]
        cases Call.ofTree c _ <;> rfl
      | [] => rfl
      | _ :: _ :: _ => rfl
    case operandExpression =>
      match ts with
      | [v] =>
        rw [Expression.ofSpine, Expression.ofSpine]
        cases Operand.ofTree v <;> rfl
      | [] => rfl
      | _ :: _ :: _ => rfl
    all_goals rfl

/-- **A chain is its left part with one more operator.** -/
theorem Expression.ofTree_binary (text : String) (start : Option Nat) (left operator right : Tree) :
    Expression.ofTree (.node .binaryExpression text start [left, operator, right]) = (do
      let e ← Expression.ofTree left
      let sign ← operator.textOf .operator .operator
      let value ← Operand.ofTree right
      pure (.binary e sign value
        (Tree.node .binaryExpression text start [left, operator, right]).span)) := by
  rw [Expression.ofTree, Expression.ofSpine, Expression.ofSpine_eq]
  cases Expression.ofTree left with
  | error e => rfl
  | ok e =>
    rw [ok_bind, ok_bind, List.foldlM_cons, Link.attach]
    cases operator.textOf .operator .operator with
    | error e => rfl
    | ok sign => cases Operand.ofTree right <;> rfl

end Chainlet
