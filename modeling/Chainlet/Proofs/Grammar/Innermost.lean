import Chainlet.Proofs.Grammar.Absorbs

/-!
# Proofs/Grammar/Innermost — calls take all that follows them

A call needs no parentheses, so an operator or a comma behind its arguments could belong to the call or
to what is around it.  Expressions and argument lists are read as far as they go, and whatever stops the
last argument of a call or its list stops the chain and the list around the call as well: an operator
with an operand, or a comma with an expression, cannot be read at the end of a call with arguments.  So
**such a call is never followed by an operator, nor by another element of its list**
(`Tree.ofSource_innermost`), whatever the elements of that list are: a field starts with a name, which is
an expression too.
-/

namespace Chainlet

open Production

namespace Grammar

variable {root : Cursor} {k n : Nat} {c d e : Cursor} {t : Tree} {ts : List Tree}

/-! ## Names -/

theorem name_absorbs : name.Absorbs root k := leaf_absorbs rfl

theorem keyword_absorbs : keyword.Absorbs root k := leaf_absorbs rfl

theorem path_absorbs : (path n).Absorbs root k := by
  intro c t d hc h
  obtain ⟨⟨first, d₁⟩, hfirst, h⟩ := Option.bind_eq_some_iff.1 h
  dsimp only at h
  generalize hmore : repeated _ n d₁ = more at h
  obtain ⟨more, e⟩ := more
  cases h
  refine branch_innermost rfl (List.forall_mem_cons.2 ⟨name_absorbs hc hfirst, ?_⟩)
  refine (steps_forall (fun c t d hc h => ?_) (hc.step (name_reads hfirst).1.reaches)
    (steps_of_eq hmore)).1
  obtain ⟨e, hsign, hname⟩ := Option.bind_eq_some_iff.1 h
  have hpoint := sign_past (only_exactly ['.']) (List.cons_ne_nil _ _) hsign
  exact ⟨name_absorbs (hc.step hpoint.1) hname, hpoint.1.trans (name_reads hname).1.reaches⟩

theorem typeAscription_absorbs : typeAscription.Absorbs root k := by
  intro c t d hc h
  obtain ⟨d₁, hsign, h⟩ := Option.bind_eq_some_iff.1 h
  obtain ⟨⟨type, e⟩, htype, h⟩ := Option.bind_eq_some_iff.1 h
  cases h
  have hcolon := sign_past (only_exactly [':']) (List.cons_ne_nil _ _) hsign
  exact branch_innermost rfl
    (List.forall_mem_singleton.2 (name_absorbs (hc.step hcolon.1).skip htype))

theorem typedName_absorbs : typedName.Absorbs root k := by
  intro c t d hc h
  obtain ⟨⟨label, d₁⟩, hlabel, h⟩ := Option.bind_eq_some_iff.1 h
  dsimp only at h
  generalize htype : optionalPart typeAscription d₁ = type at h
  obtain ⟨type, e⟩ := type
  cases h
  have hd := hc.step (name_reads hlabel).1.reaches
  exact branch_innermost rfl (List.forall_mem_cons.2 ⟨name_absorbs hc hlabel,
    List.forall_mem_singleton.2 (optionalPart_innermost typeAscription_absorbs hd htype)⟩)

theorem generics_absorbs : (generics n).Absorbs root k := by
  intro c t d hc h
  obtain ⟨d₁, hsign, h⟩ := Option.bind_eq_some_iff.1 h
  dsimp only at h
  generalize hnames : separated n name d₁ = names at h
  obtain ⟨names, e⟩ := names
  dsimp only at h
  split at h
  · cases h
  · obtain ⟨f, -, h⟩ := Option.bind_eq_some_iff.1 h
    cases h
    have hless := sign_past (only_exactly ['<']) (List.cons_ne_nil _ _) hsign
    exact branch_innermost rfl
      (separated_innermost name_reads rfl name_absorbs (hc.step hless.1) hnames)

/-! ## Where expressions end -/

end Grammar

/-- An expression with innermost nodes that no operator continues, nor a comma if it is a call with
arguments. -/
structure Tree.Ended (root : Cursor) (t : Tree) (d : Cursor) : Prop where
  tree : t.AllInnermost root
  operator : Grammar.link d.rest.length Grammar.expression d = none
  comma : t.takesArguments = true → commaStep Grammar.expression d = none

/-- Arguments that are none because no expression starts behind them, or that nothing continues. -/
def Tree.Exhausts (arguments : Tree) (d : Cursor) : Prop :=
  arguments.children = [] ∧ Grammar.expression d.skipBlank = none ∨
    arguments.children ≠ [] ∧ d.Closes

/-- A production whose trees end so, behind a root and in rests shorter than a bound. -/
def Production.Ends (root : Cursor) (k : Nat) (p : Production) : Prop :=
  ∀ ⦃c : Cursor⦄ ⦃t : Tree⦄ ⦃d : Cursor⦄, root.Below k c → p c = some (t, d) → t.Ended root d

namespace Grammar

variable {root : Cursor} {k n : Nat} {c d e : Cursor} {t : Tree} {ts : List Tree}

/-- An expression is no field. -/
theorem entry_of_expression {t : Tree} (h : (Slot.category .expression).admits t = true) :
    t.entry = t := by
  obtain ⟨rule, text, start, ts⟩ := t
  cases rule
  case field => cases h
  all_goals rfl

/-- Where a name starts, an expression does. -/
theorem expression_isSome (h : (name c).isSome = true) : (expression c).isSome = true := by
  obtain ⟨⟨first, d⟩, hname⟩ := Option.isSome_iff_exists.1 h
  have hpath : ((wrap .pathOperand (path c.rest.length)) c).isSome = true := by
    rw [wrap, path, hname]
    rfl
  have hoperand : (operand c.rest.length (expressionAt c.rest.length) c).isSome = true := by
    rw [operand, firstOf, List.findSome?_isSome_iff]
    exact ⟨_, by simp, hpath⟩
  obtain ⟨⟨value, e⟩, hvalue⟩ := Option.isSome_iff_exists.1 hoperand
  obtain ⟨head, hhead⟩ : ∃ head,
      chainHead c.rest.length (expressionAt c.rest.length) c = some head := by
    rw [chainHead, either, wrap, hvalue]
    cases call c.rest.length (expressionAt c.rest.length) c with
    | some head => exact ⟨head, rfl⟩
    | none => exact ⟨_, rfl⟩
  exact Option.isSome_iff_exists.2 ⟨_, Option.bind_eq_some_iff.2 ⟨head, hhead, rfl⟩⟩

/-- A comma with a field is a comma with an expression, since a field starts with a name. -/
theorem commaStep_field_eq_none {inner : Production} (h : commaStep expression d = none) :
    commaStep (field inner) d = none := by
  refine Option.eq_none_iff_forall_ne_some.2 fun r hread => ?_
  obtain ⟨e, hsign, hfield⟩ := Option.bind_eq_some_iff.1 hread
  obtain ⟨⟨key, d₁⟩, hkey, -⟩ := Option.bind_eq_some_iff.1 hfield
  obtain ⟨⟨label, d₂⟩, hlabel, -⟩ := Option.bind_eq_some_iff.1 hkey
  obtain ⟨r', hr'⟩ := Option.isSome_iff_exists.1
    (expression_isSome (Option.isSome_iff_exists.2 ⟨_, hlabel⟩))
  exact absurd (h.symm.trans (Option.bind_eq_some_iff.2 ⟨e, hsign, hr'⟩)) nofun

/-! ## Productions with expressions in them -/

section Inner

variable (hinner : (expressionAt k).Ends root k)
include hinner

/-- A comma never continues a list of expressions behind a call with arguments. -/
theorem expressionAt_closes (hc : root.Below k c) (h : expressionAt k c = some (t, d))
    (htakes : t.entry.takesArguments = true) : commaStep (expressionAt k) d = none := by
  obtain ⟨hderives, hslot⟩ := expressionAt_reads k h
  rw [entry_of_expression hslot] at htakes
  rw [commaStep_eq (hc.step hderives.reaches).length_lt]
  exact (hinner hc h).comma htakes

theorem field_cases (hc : root.Below k c) (h : field (expressionAt k) c = some (t, d)) :
    t.AllInnermost root ∧ t.entry.Ended root d := by
  obtain ⟨⟨key, d₁⟩, hkey, h⟩ := Option.bind_eq_some_iff.1 h
  obtain ⟨e, hsign, h⟩ := Option.bind_eq_some_iff.1 h
  obtain ⟨⟨value, f⟩, hvalue, h⟩ := Option.bind_eq_some_iff.1 h
  cases h
  have hd := (hc.step (typedName_reads hkey).1.reaches).skip
  have hended := hinner (hd.step (sign_past only_equals (List.cons_ne_nil _ _) hsign).1).skip hvalue
  exact ⟨branch_innermost rfl (List.forall_mem_cons.2
    ⟨typedName_absorbs hc hkey, List.forall_mem_singleton.2 hended.tree⟩), hended⟩

theorem expressionAt_absorbs : (expressionAt k).Absorbs root k := fun _ _ _ hc h => (hinner hc h).tree

theorem literal_absorbs : (literal n (expressionAt k)).Absorbs root (k + 1) := by
  have hclose := fun ⦃c t d⦄ => @expressionAt_closes root k c d t hinner
  refine firstOf_absorbs fun p hp => ?_
  simp only [List.mem_cons, List.not_mem_nil, or_false] at hp
  obtain rfl | rfl | rfl | rfl | rfl | rfl | rfl | rfl | rfl | rfl := hp
  · exact bracketed_absorbs (expressionAt_reads k) rfl (expressionAt_absorbs hinner) hclose
      (fun _ _ _ => rfl) (by decide) (List.cons_ne_nil _ _)
  · refine bracketed_absorbs (field_reads (expressionAt_reads k)) rfl
      (fun c t d hc h => (field_cases hinner hc h).1) (fun c t d hc h htakes => ?_)
      (fun _ _ _ => rfl) (by decide) (List.cons_ne_nil _ _)
    exact commaStep_field_eq_none ((field_cases hinner hc h).2.comma htakes)
  · exact bracketed_absorbs (expressionAt_reads k) rfl (expressionAt_absorbs hinner) hclose
      (fun _ _ _ => rfl) (by decide) (List.cons_ne_nil _ _)
  all_goals exact leaf_absorbs rfl

theorem assignment_absorbs : (assignment n (expressionAt k)).Absorbs root (k + 1) := by
  intro c t d hc h
  obtain ⟨⟨target, d₁⟩, htarget, h⟩ := Option.bind_eq_some_iff.1 h
  obtain ⟨e, hsign, h⟩ := Option.bind_eq_some_iff.1 h
  obtain ⟨⟨value, f⟩, hvalue, h⟩ := Option.bind_eq_some_iff.1 h
  cases h
  have he := (hc.past (path_reads.past rfl htarget)).skip.step
    (sign_past only_equals (List.cons_ne_nil _ _) hsign).1
  exact branch_innermost rfl (List.forall_mem_cons.2 ⟨path_absorbs hc htarget,
    List.forall_mem_singleton.2 (hinner he.skip hvalue).tree⟩)

theorem parameter_absorbs : (parameter n (expressionAt k)).Absorbs root (k + 1) :=
  either_absorbs (wrap_absorbs (literal_absorbs hinner) rfl) (wrap_absorbs typedName_absorbs rfl)

theorem binding_absorbs : (binding (expressionAt k)).Absorbs root (k + 1) := by
  intro c t d hc h
  obtain ⟨d₁, hsign, h⟩ := Option.bind_eq_some_iff.1 h
  obtain ⟨⟨body, e⟩, hbody, h⟩ := Option.bind_eq_some_iff.1 h
  cases h
  have hd := hc.past (sign_past only_equals (List.cons_ne_nil _ _) hsign)
  exact branch_innermost rfl (List.forall_mem_singleton.2 (hinner hd.skip hbody).tree)

theorem definition_absorbs : (definition n (expressionAt k)).Absorbs root (k + 1) := by
  intro c t d hc h
  obtain ⟨⟨word, d₁⟩, hword, h⟩ := Option.bind_eq_some_iff.1 h
  obtain ⟨⟨label, d₂⟩, hlabel, h⟩ := Option.bind_eq_some_iff.1 h
  dsimp only at h
  generalize htypes : optionalPart (generics n) d₂ = types at h
  obtain ⟨types, d₃⟩ := types
  dsimp only at h
  generalize hinputs : commaList n .parameters (parameter n (expressionAt k)) d₃ = inputs at h
  obtain ⟨inputs, d₄⟩ := inputs
  dsimp only at h
  generalize hbody : optionalPart (binding (expressionAt k)) d₄ = body at h
  obtain ⟨body, d₅⟩ := body
  cases h
  have hreads := parameter_reads (n := n) (expressionAt_reads k)
  have h₁ := hc.step (keyword_reads hword).1.reaches
  have h₂ := h₁.skip.step (typedName_reads hlabel).1.reaches
  have h₃ := h₂.step (optionalPart_reaches generics_reads htypes)
  obtain ⟨finputs, -⟩ : Fills .definition d₃ [inputs] d₄ ∧ _ :=
    commaList_fills hreads rfl rfl rfl (by decide) rfl hinputs
  have h₄ := h₃.step finputs.reaches
  refine branch_innermost rfl ?_
  simp only [List.forall_mem_cons]
  exact ⟨keyword_absorbs hc hword, typedName_absorbs h₁.skip hlabel,
    optionalPart_innermost generics_absorbs h₂ htypes,
    commaList_innermost hreads rfl rfl (parameter_absorbs hinner) h₃ hinputs,
    optionalPart_innermost (binding_absorbs hinner) h₄ hbody, List.forall_mem_nil _⟩

theorem item_absorbs : (item n (expressionAt k)).Absorbs root k := by
  have hstatement : (statement n (expressionAt k)).Absorbs root (k + 1) :=
    either_absorbs (wrap_absorbs (definition_absorbs hinner) rfl)
      (wrap_absorbs (assignment_absorbs hinner) rfl)
  exact either_absorbs (wrap_absorbs (fun _ _ _ hc => hstatement hc.succ) rfl)
    (wrap_absorbs (expressionAt_absorbs hinner) rfl)

/-! ## Operands -/

theorem block_absorbs : (block n (expressionAt k)).Absorbs root (k + 1) := by
  intro c t d hc h
  obtain ⟨d₁, hopen, h⟩ := Option.bind_eq_some_iff.1 h
  dsimp only at h
  generalize hitems : repeated _ n d₁ = items at h
  obtain ⟨items, e⟩ := items
  obtain ⟨f, -, h⟩ := Option.bind_eq_some_iff.1 h
  cases h
  have hd := hc.past (sign_past (only_exactly ['{']) (List.cons_ne_nil _ _) hopen)
  refine branch_innermost rfl (steps_forall (fun c t d hc h => ?_) hd (steps_of_eq hitems)).1
  obtain ⟨⟨t', d'⟩, hitem, h⟩ := Option.bind_eq_some_iff.1 h
  obtain ⟨e, hsign, h⟩ := Option.bind_eq_some_iff.1 h
  cases h
  have hsemicolon := sign_past (only_exactly [';']) (List.cons_ne_nil _ _) hsign
  exact ⟨item_absorbs hinner hc.skip hitem, c.reaches_skipBlank.trans
    ((item_reads (expressionAt_reads k) hitem).1.reaches.trans
      (d'.reaches_skipBlank.trans hsemicolon.1))⟩

theorem group_absorbs : (group (expressionAt k)).Absorbs root (k + 1) := by
  intro c t d hc h
  obtain ⟨d₁, hopen, h⟩ := Option.bind_eq_some_iff.1 h
  obtain ⟨⟨body, e⟩, hbody, h⟩ := Option.bind_eq_some_iff.1 h
  obtain ⟨f, -, h⟩ := Option.bind_eq_some_iff.1 h
  cases h
  have hd := hc.past (sign_past (only_exactly ['(']) (List.cons_ne_nil _ _) hopen)
  exact branch_innermost rfl (List.forall_mem_singleton.2 (hinner hd.skip hbody).tree)

theorem operand_absorbs : (operand n (expressionAt k)).Absorbs root (k + 1) := by
  refine firstOf_absorbs fun p hp => ?_
  simp only [List.mem_cons, List.not_mem_nil, or_false] at hp
  obtain rfl | rfl | rfl | rfl := hp
  · exact wrap_absorbs (literal_absorbs hinner) rfl
  · exact group_absorbs hinner
  · exact wrap_absorbs (block_absorbs hinner) rfl
  · exact wrap_absorbs path_absorbs rfl

/-! ## Calls -/

/-- The last of several arguments ends where their list does. -/
theorem operator_of_steps (hc : root.Below k c)
    (hstop : link c.rest.length expression c = none)
    (h : Steps (commaStep (expressionAt k)) c ts d) : link d.rest.length expression d = none := by
  induction h with
  | nil => exact hstop
  | cons hstep _ ih =>
    obtain ⟨hbelow, e, he, hread⟩ := commaStep_below (expressionAt_reads k) rfl hc hstep
    exact ih hbelow (hinner he hread).operator

/-- The arguments of a call are none if no expression starts behind the callee, and otherwise they go on
as long as they can. -/
theorem arguments_cases (hc : root.Below k c)
    (h : commaList k .arguments (expressionAt k) c = (t, d)) :
    t.AllInnermost root ∧ t.Exhausts d := by
  rw [commaList] at h
  generalize hlist : separated k (expressionAt k) c = list at h
  obtain ⟨ts, e⟩ := list
  have hreads := expressionAt_reads k
  have hall := separated_innermost hreads rfl (expressionAt_absorbs hinner) hc hlist
  have halone := separated_alone hreads rfl (fun _ _ _ => expressionAt_closes hinner) hc hlist
  obtain ⟨rfl, rfl, hnone⟩ | ⟨a, us, d₁, rfl, hread, hrest⟩ := separated_cases hlist
  · cases h
    rw [expressionAt_eq_expression hc.skip.length_lt] at hnone
    exact ⟨Tree.allInnermost_node (Tree.innermost_of_alone (by decide) (List.forall_mem_nil _))
      (List.forall_mem_nil _), .inl ⟨rfl, hnone⟩⟩
  · cases h
    have hd₁ := hc.skip.step (hreads hread).1.reaches
    obtain ⟨hsteps, hstop⟩ := steps_of_repeated (commaStep_shortens hreads rfl) hrest
      (Nat.le_of_lt hd₁.length_lt)
    have hd : root.Below k d :=
      (steps_forall (fun _ _ _ _ h => ⟨trivial, (commaStep_past hreads rfl h).1⟩) hd₁ hsteps).2
    refine ⟨Tree.allInnermost_node (Tree.innermost_of_alone (by decide) halone) hall,
      .inr ⟨List.cons_ne_nil _ _, ?_, ?_⟩⟩
    · exact operator_of_steps hinner hd₁ (hinner hc.skip hread).operator hsteps
    · rw [← commaStep_eq hd.length_lt, hstop]

omit hinner in
theorem takesArguments_call {rule : Rule} {text text' : String} {start start' : Option Nat}
    (callee arguments : Tree) :
    (Tree.node .callExpression text start [.node rule text' start' [callee, arguments]]).takesArguments
      = !arguments.children.isEmpty := by
  obtain ⟨rule, text, start, _ | ⟨t, ts⟩⟩ := arguments <;> rfl

/-- A callee with its arguments. -/
theorem callOf_cases {rule : Rule} {callee : Production} {slot : Slot} (hreads : callee.Reads slot)
    (habsorbs : callee.Absorbs root k) (hrule : rule.isOpen = false) (hc : root.Below k c)
    (h : callOf k (expressionAt k) rule callee c = some (t, d)) :
    t.AllInnermost root ∧ ∃ text start target arguments,
      t = .node rule text start [target, arguments] ∧ arguments.Exhausts d := by
  obtain ⟨⟨target, d₁⟩, htarget, h⟩ := Option.bind_eq_some_iff.1 h
  dsimp only at h
  generalize harguments : commaList k .arguments (expressionAt k) d₁ = arguments at h
  obtain ⟨arguments, e⟩ := arguments
  cases h
  obtain ⟨hall, hend⟩ := arguments_cases hinner (hc.step (hreads htarget).1.reaches) harguments
  exact ⟨branch_innermost hrule (List.forall_mem_cons.2
    ⟨habsorbs hc htarget, List.forall_mem_singleton.2 hall⟩), _, _, target, arguments, rfl, hend⟩

/-- The target of a call: a callee of either kind with its arguments. -/
theorem target_cases (hc : root.Below k c)
    (h : either (callOf k (expressionAt k) .builtinCall keyword)
      (callOf k (expressionAt k) .userCall (path k)) c = some (t, d)) :
    t.AllInnermost root ∧ ∃ rule text start callee arguments,
      t = .node rule text start [callee, arguments] ∧ arguments.Exhausts d := by
  rw [either] at h
  cases hbuiltin : callOf k (expressionAt k) .builtinCall keyword c with
  | some r =>
    rw [hbuiltin] at h
    cases h
    obtain ⟨hall, hparts⟩ := callOf_cases hinner keyword_reads keyword_absorbs rfl hc hbuiltin
    exact ⟨hall, .builtinCall, hparts⟩
  | none =>
    rw [hbuiltin] at h
    obtain ⟨hall, hparts⟩ := callOf_cases hinner path_reads path_absorbs rfl hc h
    exact ⟨hall, .userCall, hparts⟩

/-- **A call takes all that it can.** -/
theorem call_cases (hc : root.Below (k + 1) c) (h : call k (expressionAt k) c = some (t, d)) :
    t.AllInnermost root ∧ t.EndsAt d := by
  have hderives := (call_reads (expressionAt_reads k) h).1
  obtain ⟨d₁, hsign, h⟩ := Option.bind_eq_some_iff.1 h
  obtain ⟨⟨target, e⟩, htarget, h⟩ := Option.bind_eq_some_iff.1 h
  cases h
  have hd := (hc.past (sign_past (only_exactly ['&']) (List.cons_ne_nil _ _) hsign)).skip
  obtain ⟨hall, rule, text, start, callee, arguments, rfl, hend⟩ := target_cases hinner hd htarget
  have hends : Tree.EndsAt (branch .callExpression c d
      [.node rule text start [callee, arguments]]) d := by
    refine ⟨by rw [hderives.span_eq], ?_⟩
    rw [branch, takesArguments_call]
    obtain ⟨hnil, hnone⟩ | ⟨hne, hcloses⟩ := hend
    · rw [hnil]
      exact hnone
    · rw [List.isEmpty_eq_false_iff.2 hne]
      exact hcloses
  refine ⟨Tree.allInnermost_node ⟨List.forall_mem_nil _, fun _ => ⟨d, ?_, hends⟩⟩
    (List.forall_mem_singleton.2 hall), hends⟩
  exact hc.reaches.trans hderives.reaches

/-! ## Chains -/

/-- An operator and its operand. -/
theorem link_cases {l : Tree × Tree × Cursor} (hc : root.Below (k + 1) c)
    (h : link k (expressionAt k) c = some (l, d)) :
    (l.1.AllInnermost root ∧ l.2.1.AllInnermost root) ∧ c.Reaches d := by
  obtain ⟨⟨sign, e⟩, hsign, h⟩ := Option.bind_eq_some_iff.1 h
  obtain ⟨⟨right, f⟩, hright, h⟩ := Option.bind_eq_some_iff.1 h
  cases h
  have hoperator := (leaf_reads Lexeme.operator_forms Lexeme.operator_splits rfl hsign).1.reaches
  exact ⟨⟨leaf_absorbs rfl hc.skip hsign,
    operand_absorbs hinner (hc.skip.step hoperator).skip hright⟩, c.reaches_skipBlank.trans
      (hoperator.trans (e.reaches_skipBlank.trans (operand_reads (expressionAt_reads k) hright).1.reaches))⟩

omit hinner in
/-- With an operator behind it nothing is a call. -/
theorem takesArguments_foldLinks {head : Tree} {links : List (Tree × Tree × Cursor)}
    (h : links ≠ []) : (foldLinks c head links).takesArguments = false := by
  induction links generalizing head with
  | nil => exact absurd rfl h
  | cons l ls ih =>
    obtain ⟨sign, right, stop⟩ := l
    cases ls with
    | nil => rfl
    | cons l' ls => exact ih (List.cons_ne_nil _ _)

omit hinner in
/-- A chain is innermost if its head is no call with arguments. -/
theorem foldLinks_innermost {head : Tree} {links : List (Tree × Tree × Cursor)}
    (hhead : head.AllInnermost root) (halone : links ≠ [] → head.takesArguments = false)
    (hlinks : ∀ l ∈ links, l.1.AllInnermost root ∧ l.2.1.AllInnermost root) :
    (foldLinks c head links).AllInnermost root := by
  induction links generalizing head with
  | nil => exact hhead
  | cons l ls ih =>
    obtain ⟨sign, right, stop⟩ := l
    obtain ⟨⟨hsign, hright⟩, hmore⟩ := List.forall_mem_cons.1 hlinks
    refine ih ?_ (fun _ => rfl) hmore
    refine Tree.allInnermost_node (Tree.innermost_of_alone (by decide)
      (List.forall_mem_singleton.2 (halone (List.cons_ne_nil _ _)))) ?_
    simp only [List.forall_mem_cons]
    exact ⟨hhead, hsign, hright, List.forall_mem_nil _⟩

/-- Nothing continues what was read up to the end of a head that is a call with arguments. -/
theorem chainHead_cases (hc : root.Below (k + 1) c)
    (h : chainHead k (expressionAt k) c = some (t, d)) :
    t.AllInnermost root ∧ (t.takesArguments = true → d.Closes) := by
  rw [chainHead, either] at h
  cases hcall : call k (expressionAt k) c with
  | some r =>
    rw [hcall] at h
    cases h
    obtain ⟨hinnermost, -, hends⟩ := call_cases hinner hc hcall
    exact ⟨hinnermost, fun htakes => by rwa [if_pos htakes] at hends⟩
  | none =>
    rw [hcall] at h
    obtain ⟨⟨value, d₂⟩, hvalue, heq⟩ := Option.bind_eq_some_iff.1 h
    cases heq
    exact ⟨branch_innermost rfl (List.forall_mem_singleton.2 (operand_absorbs hinner hc hvalue)),
      fun htakes => absurd htakes Bool.false_ne_true⟩

/-- **A chain ends where nothing continues it**, and it has no operator behind a call with arguments. -/
theorem chain_ends : (chain k (expressionAt k)).Ends root (k + 1) := by
  intro c t d hc h
  have hreads := expressionAt_reads k
  obtain ⟨⟨head, d₁⟩, hhead, h⟩ := Option.bind_eq_some_iff.1 h
  dsimp only at h
  generalize hlinks : repeated (link k (expressionAt k)) k d₁ = links at h
  obtain ⟨links, e⟩ := links
  cases h
  have hd₁ := hc.past ((chainHead_reads hreads).past rfl hhead)
  obtain ⟨hsteps, hstop⟩ := steps_of_repeated (link_shortens hreads) hlinks
    (Nat.le_of_lt hd₁.length_lt)
  obtain ⟨hall, hd⟩ := steps_forall (fun _ _ _ => link_cases hinner) hd₁.succ hsteps
  obtain ⟨hinnermost, hcloses⟩ := chainHead_cases hinner hc hhead
  have halone : head.takesArguments = true → links = [] := fun htakes => by
    cases hsteps with
    | nil => rfl
    | cons hstep _ =>
      rw [link_eq hd₁.succ.length_lt, (hcloses htakes).operator] at hstep
      cases hstep
  refine ⟨foldLinks_innermost hinnermost (fun hne => ?_) hall, ?_, fun htakes => ?_⟩
  · cases htakes : head.takesArguments with
    | false => rfl
    | true => exact absurd (halone htakes) hne
  · rw [← link_eq hd.length_lt, hstop]
  · change (foldLinks c head links).takesArguments = true at htakes
    by_cases hnone : links = []
    · subst hnone
      cases hsteps
      exact (hcloses htakes).comma
    · rw [takesArguments_foldLinks hnone] at htakes
      cases htakes

end Inner

/-- **Expressions of any nesting end where nothing continues them.** -/
theorem expressionAt_ends (root : Cursor) (k : Nat) : (expressionAt k).Ends root k := by
  induction k with
  | zero => exact fun _ _ _ _ h => nomatch h
  | succ k ih => exact chain_ends ih

/-! ## Sources -/

theorem elementWith_innermost (hc : root.Below k c)
    (h : elementWith n (expressionAt k) c = some (t, d)) : t.AllInnermost root := by
  refine either_absorbs (wrap_absorbs (leaf_absorbs rfl) rfl) (fun c t d hc h => ?_) hc h
  obtain ⟨⟨t', d'⟩, hitem, h⟩ := Option.bind_eq_some_iff.1 h
  obtain ⟨e, -, h⟩ := Option.bind_eq_some_iff.1 h
  cases h
  exact branch_innermost rfl
    (List.forall_mem_singleton.2 (item_absorbs (expressionAt_ends root k) hc hitem))

end Grammar

/-- **No call with arguments is followed by anything in its source, and calls take all they can.** -/
theorem Tree.ofSource_innermost {source : String} {tree : Tree} (h : ofSource source = .ok tree) :
    tree.AllInnermost (Cursor.ofSource source) := by
  obtain ⟨text, start, ts, stop, rfl, hrun, -⟩ := ofSource_eq_ok h
  obtain ⟨d, hsteps, -, -⟩ := Grammar.steps_of_elements hrun
  refine allInnermost_node (innermost_of_not_isOpen rfl) ?_
  have hstart : (Cursor.ofSource source).Below ((Cursor.ofSource source).skipBlank.rest.length + 1)
      (Cursor.ofSource source).skipBlank :=
    ⟨Cursor.reaches_skipBlank _, Nat.lt_succ_self _⟩
  refine (steps_forall (fun c t d hc h => ?_) hstart hsteps).1
  exact ⟨Grammar.elementWith_innermost hc.skip h, Grammar.elementStep_reaches _ h⟩

end Chainlet
