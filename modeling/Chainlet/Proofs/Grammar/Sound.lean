import Chainlet.Grammar.Source
import Chainlet.Proofs.Grammar.Derivation

/-!
# Proofs/Grammar/Sound — every production reads derivations

One lemma for each production, with that for the inner expressions as an assumption; the knot is tied
in `expressionAt_reads`.  A whole source is a run of elements (`elements_fills`), so **every node of
a parse tree conforms** (`Tree.ofSource_conforms`).
-/

namespace Chainlet

namespace Grammar

open Production

variable {n : Nat} {inner : Production}

/-! ## Names -/

theorem name_reads : name.Reads (.rule .name) :=
  leaf_reads Lexeme.name_forms Lexeme.name_splits rfl

theorem keyword_reads : keyword.Reads (.rule .keyword) :=
  leaf_reads Lexeme.keyword_forms Lexeme.keyword_splits rfl

/-- A path is read as names with points between them. -/
theorem path_reads : (path n).Reads (.rule .path) := by
  intro c t d h
  obtain ⟨⟨first, d₁⟩, hfirst, h⟩ := Option.bind_eq_some_iff.1 h
  dsimp only at h
  generalize hmore : repeated _ n d₁ = more at h
  obtain ⟨more, e⟩ := more
  cases h
  obtain ⟨hname, hslot⟩ := name_reads hfirst
  have hstep : ∀ ⦃c t d⦄, (do name (← sign (.exactly ['.']) c)) = some (t, d) →
      Fills .path c [t] d ∧ (Slot.rule .name).admits t = true := by
    intro c t d h
    obtain ⟨e, hsign, h⟩ := Option.bind_eq_some_iff.1 h
    obtain ⟨hderives, hslot⟩ := name_reads h
    exact ⟨(only_exactly ['.']).fills (by decide) hsign hderives.fills, hslot⟩
  obtain ⟨hfills, hall⟩ := repeated_fills hstep hmore
  refine branch_reads rfl rfl ?_ (hname.fills.append hfills)
  rw [Rule.layout, Layout.admits, List.all_cons, hslot]
  exact hall

/-- A type annotation is read as a colon and a name. -/
theorem typeAscription_reads : typeAscription.Reads (.rule .typeAscription) := by
  intro c t d h
  obtain ⟨d₁, hsign, h⟩ := Option.bind_eq_some_iff.1 h
  obtain ⟨⟨type, e⟩, htype, h⟩ := Option.bind_eq_some_iff.1 h
  cases h
  obtain ⟨hname, hslot⟩ := name_reads htype
  refine branch_reads rfl rfl ?_ ((only_exactly [':']).fills (by decide) hsign (.blank hname.fills))
  rw [Rule.layout, Layout.admits, Slot.admitsEach, hslot]
  rfl

/-- A name is read with a type that may be missing. -/
theorem typedName_reads : typedName.Reads (.rule .typedName) := by
  intro c t d h
  obtain ⟨⟨label, d₁⟩, hlabel, h⟩ := Option.bind_eq_some_iff.1 h
  dsimp only at h
  generalize htype : optionalPart typeAscription d₁ = type at h
  obtain ⟨type, e⟩ := type
  cases h
  obtain ⟨hname, hslot⟩ := name_reads hlabel
  obtain ⟨hfills, hslot'⟩ := optionalPart_fills typeAscription_reads htype
  refine branch_reads rfl rfl ?_ (hname.fills.append hfills)
  rw [Rule.layout, Layout.admits, Slot.admitsEach, Slot.admitsEach, hslot, hslot']
  rfl

/-- Type parameters are read as names between angle brackets, or as none. -/
theorem generics_reads : (generics n).Reads (.rule .generics) := by
  intro c t d h
  obtain ⟨d₁, hopen, h⟩ := Option.bind_eq_some_iff.1 h
  dsimp only at h
  generalize hnames : separated n name d₁ = names at h
  obtain ⟨names, e⟩ := names
  dsimp only at h
  split at h
  · cases h
  · next hne =>
    obtain ⟨f, hclose, h⟩ := Option.bind_eq_some_iff.1 h
    cases h
    have hcomma : [','] ∈ Rule.generics.separators := by decide
    obtain ⟨hall, ⟨rfl, -⟩ | hfills⟩ := separated_fills name_reads hcomma hnames
    · exact absurd rfl hne
    · have hclosed : Fills .generics e.skipBlank [] d :=
        (only_exactly ['>']).fills (by decide) hclose .done
      have hinside := hfills.append (.blank hclosed)
      rw [List.append_nil] at hinside
      refine branch_reads rfl rfl ?_
        ((only_exactly ['<']).fills (by decide) hopen (.blank hinside))
      exact hall

/-! ## Literals -/

/-- A field is read as a key, an equals sign and an expression. -/
theorem field_reads (hinner : inner.Reads (.category .expression)) :
    (field inner).Reads (.rule .field) := by
  intro c t d h
  obtain ⟨⟨key, d₁⟩, hkey, h⟩ := Option.bind_eq_some_iff.1 h
  obtain ⟨e, hsign, h⟩ := Option.bind_eq_some_iff.1 h
  obtain ⟨⟨value, f⟩, hvalue, h⟩ := Option.bind_eq_some_iff.1 h
  cases h
  obtain ⟨hname, hslot⟩ := typedName_reads hkey
  obtain ⟨hexpression, hslot'⟩ := hinner hvalue
  refine branch_reads rfl rfl ?_ (.child hname (.blank (only_equals.fills (by decide) hsign
    (.blank hexpression.fills))))
  rw [Rule.layout, Layout.admits, Slot.admitsEach, Slot.admitsEach, hslot, hslot']
  rfl

/-- Each alternative of a literal reads a node of that category. -/
theorem literal_reads (hinner : inner.Reads (.category .expression)) :
    (literal n inner).Reads (.category .literal) := by
  refine firstOf_reads fun p hp => ?_
  simp only [List.mem_cons, List.not_mem_nil, or_false] at hp
  obtain rfl | rfl | rfl | rfl | rfl | rfl | rfl | rfl | rfl | rfl := hp
  · exact (bracketed_reads hinner rfl rfl (by decide)).category
  · exact (bracketed_reads (field_reads hinner) rfl rfl (by decide)).category
  · exact (bracketed_reads hinner rfl rfl (by decide)).category
  · exact (leaf_reads Lexeme.string_forms Lexeme.string_splits rfl).category
  · exact (leaf_reads Lexeme.float_forms Lexeme.float_splits rfl).category
  · exact (leaf_reads (Lexeme.based_forms _ _) Lexeme.hex_splits rfl).category
  · exact (leaf_reads (Lexeme.based_forms _ _) Lexeme.binary_splits rfl).category
  · exact (leaf_reads (Lexeme.based_forms _ _) Lexeme.octal_splits rfl).category
  · exact (leaf_reads Lexeme.decimal_forms Lexeme.decimal_splits rfl).category
  · exact (leaf_reads Lexeme.boolean_forms Lexeme.boolean_splits rfl).category

/-! ## Items -/

theorem assignment_reads (hinner : inner.Reads (.category .expression)) :
    (assignment n inner).Reads (.rule .assignment) := by
  intro c t d h
  obtain ⟨⟨target, d₁⟩, htarget, h⟩ := Option.bind_eq_some_iff.1 h
  obtain ⟨e, hsign, h⟩ := Option.bind_eq_some_iff.1 h
  obtain ⟨⟨value, f⟩, hvalue, h⟩ := Option.bind_eq_some_iff.1 h
  cases h
  obtain ⟨hpath, hslot⟩ := path_reads htarget
  obtain ⟨hexpression, hslot'⟩ := hinner hvalue
  refine branch_reads rfl rfl ?_ (.child hpath (.blank (only_equals.fills (by decide) hsign
    (.blank hexpression.fills))))
  rw [Rule.layout, Layout.admits, Slot.admitsEach, Slot.admitsEach, hslot, hslot']
  rfl

theorem parameter_reads (hinner : inner.Reads (.category .expression)) :
    (parameter n inner).Reads (.category .parameter) :=
  either_reads (wrap_reads (literal_reads hinner) rfl rfl).category
    (wrap_reads typedName_reads rfl rfl).category

theorem binding_reads (hinner : inner.Reads (.category .expression)) :
    (binding inner).Reads (.rule .binding) := by
  intro c t d h
  obtain ⟨d₁, hsign, h⟩ := Option.bind_eq_some_iff.1 h
  obtain ⟨⟨body, e⟩, hbody, h⟩ := Option.bind_eq_some_iff.1 h
  cases h
  obtain ⟨hexpression, hslot⟩ := hinner hbody
  refine branch_reads rfl rfl ?_ (only_equals.fills (by decide) hsign (.blank hexpression.fills))
  rw [Rule.layout, Layout.admits, Slot.admitsEach, hslot]
  rfl

/-- A definition is read as its five parts, of which three may be missing or empty. -/
theorem definition_reads (hinner : inner.Reads (.category .expression)) :
    (definition n inner).Reads (.rule .definition) := by
  intro c t d h
  obtain ⟨⟨word, d₁⟩, hword, h⟩ := Option.bind_eq_some_iff.1 h
  obtain ⟨⟨label, d₂⟩, hlabel, h⟩ := Option.bind_eq_some_iff.1 h
  dsimp only at h
  generalize htypes : optionalPart (generics n) d₂ = types at h
  obtain ⟨types, d₃⟩ := types
  dsimp only at h
  generalize hinputs : commaList n .parameters (parameter n inner) d₃ = inputs at h
  obtain ⟨inputs, d₄⟩ := inputs
  dsimp only at h
  generalize hbody : optionalPart (binding inner) d₄ = body at h
  obtain ⟨body, d₅⟩ := body
  cases h
  obtain ⟨fword, sword⟩ := keyword_reads hword
  obtain ⟨flabel, slabel⟩ := typedName_reads hlabel
  obtain ⟨ftypes, stypes⟩ := optionalPart_fills generics_reads htypes
  obtain ⟨finputs, sinputs⟩ :=
    commaList_fills (parameter_reads hinner) rfl rfl rfl (by decide) rfl hinputs
  obtain ⟨fbody, sbody⟩ := optionalPart_fills (binding_reads hinner) hbody
  refine branch_reads rfl rfl ?_
    (.child fword (.blank (.child flabel (ftypes.append (finputs.append fbody)))))
  simp only [Rule.layout, Layout.admits, Slot.admitsEach, sword, slabel, stypes, sinputs, sbody,
    Bool.and_self]

theorem statement_reads (hinner : inner.Reads (.category .expression)) :
    (statement n inner).Reads (.category .statement) :=
  either_reads (wrap_reads (definition_reads hinner) rfl rfl).category
    (wrap_reads (assignment_reads hinner) rfl rfl).category

theorem item_reads (hinner : inner.Reads (.category .expression)) :
    (item n inner).Reads (.category .item) :=
  either_reads (wrap_reads (statement_reads hinner) rfl rfl).category
    (wrap_reads hinner rfl rfl).category

/-! ## Operands -/

/-- A block is read as items, each with its semicolon. -/
theorem block_reads (hinner : inner.Reads (.category .expression)) :
    (block n inner).Reads (.rule .block) := by
  intro c t d h
  obtain ⟨d₁, hopen, h⟩ := Option.bind_eq_some_iff.1 h
  obtain ⟨inside, hopening, rfl⟩ := (only_exactly ['{']).sign hopen
  dsimp only at h
  generalize hitems : repeated _ n (c.after ['{'] inside) = items at h
  obtain ⟨items, e⟩ := items
  obtain ⟨f, hclose, h⟩ := Option.bind_eq_some_iff.1 h
  obtain ⟨rest, hclosing, rfl⟩ := (only_exactly ['}']).sign hclose
  cases h
  obtain ⟨hfills, hall⟩ : Fills .block (c.after ['{'] inside) items e
      ∧ items.all (Slot.category .item).admits = true := by
    refine repeated_fills (fun c t d h => ?_) hitems
    obtain ⟨⟨t', d'⟩, hitem, h⟩ := Option.bind_eq_some_iff.1 h
    obtain ⟨e, hsign, h⟩ := Option.bind_eq_some_iff.1 h
    cases h
    obtain ⟨hderives, hslot⟩ := item_reads hinner hitem
    exact ⟨.blank (.child hderives (.blank ((only_exactly [';']).fills (by decide) hsign .done))),
      hslot⟩
  have hwhole := hfills.append (.blank .done)
  rw [List.append_nil] at hwhole
  exact ⟨.bracketed rfl hall hopening hwhole hclosing, rfl⟩

/-- A group is read as an expression between parentheses. -/
theorem group_reads (hinner : inner.Reads (.category .expression)) :
    (group inner).Reads (.rule .groupOperand) := by
  intro c t d h
  obtain ⟨d₁, hopen, h⟩ := Option.bind_eq_some_iff.1 h
  obtain ⟨inside, hopening, rfl⟩ := (only_exactly ['(']).sign hopen
  obtain ⟨⟨body, e⟩, hbody, h⟩ := Option.bind_eq_some_iff.1 h
  obtain ⟨f, hclose, h⟩ := Option.bind_eq_some_iff.1 h
  obtain ⟨rest, hclosing, rfl⟩ := (only_exactly [')']).sign hclose
  cases h
  obtain ⟨hexpression, hslot⟩ := hinner hbody
  refine ⟨.bracketed rfl ?_ hopening (.blank (.child hexpression (.blank .done))) hclosing, rfl⟩
  rw [Rule.layout, Layout.admits, Slot.admitsEach, hslot]
  rfl

/-- Each alternative of an operand reads a node of that category. -/
theorem operand_reads (hinner : inner.Reads (.category .expression)) :
    (operand n inner).Reads (.category .operand) := by
  refine firstOf_reads fun p hp => ?_
  simp only [List.mem_cons, List.not_mem_nil, or_false] at hp
  obtain rfl | rfl | rfl | rfl := hp
  · exact (wrap_reads (literal_reads hinner) rfl rfl).category
  · exact (group_reads hinner).category
  · exact (wrap_reads (block_reads hinner) rfl rfl).category
  · exact (wrap_reads path_reads rfl rfl).category

/-! ## Expressions -/

/-- A call is read as its function and the list of its arguments. -/
theorem callOf_reads {rule target : Rule} {callee : Production}
    (hinner : inner.Reads (.category .expression)) (hcallee : callee.Reads (.rule target))
    (hlayout : rule.layout = .fixed [.rule target, .rule .arguments]) (hform : rule.form? = none)
    (hbrackets : rule.brackets? = none) : (callOf n inner rule callee).Reads (.rule rule) := by
  intro c t d h
  obtain ⟨⟨target, d₁⟩, htarget, h⟩ := Option.bind_eq_some_iff.1 h
  dsimp only at h
  generalize harguments : commaList n .arguments inner d₁ = arguments at h
  obtain ⟨arguments, e⟩ := arguments
  cases h
  obtain ⟨hderives, hslot⟩ := hcallee htarget
  obtain ⟨hfills, hslot'⟩ := commaList_fills hinner rfl rfl rfl (by decide) rfl harguments
  refine branch_reads hform hbrackets ?_ (.child hderives hfills)
  rw [hlayout, Layout.admits, Slot.admitsEach, Slot.admitsEach, hslot, hslot']
  rfl

theorem call_reads (hinner : inner.Reads (.category .expression)) :
    (call n inner).Reads (.category .expression) := by
  intro c t d h
  obtain ⟨d₁, hsign, h⟩ := Option.bind_eq_some_iff.1 h
  obtain ⟨⟨target, e⟩, htarget, h⟩ := Option.bind_eq_some_iff.1 h
  cases h
  have hcall : (either (callOf n inner .builtinCall keyword)
      (callOf n inner .userCall (path n))).Reads (.category .call) :=
    either_reads (callOf_reads hinner keyword_reads rfl rfl rfl).category
      (callOf_reads hinner path_reads rfl rfl rfl).category
  obtain ⟨hderives, hslot⟩ := hcall htarget
  refine ⟨.branch rfl rfl ?_ ((only_exactly ['&']).fills (by decide) hsign (.blank hderives.fills)),
    rfl⟩
  rw [Rule.layout, Layout.admits, Slot.admitsEach, hslot]
  rfl

/-- An expression with one more operator and operand behind it. -/
theorem link_reads (hinner : inner.Reads (.category .expression)) {c d e stop : Cursor}
    {left sign right : Tree} (hleft : Derives c left d)
    (hslot : (Slot.category .expression).admits left = true)
    (h : link n inner d = some ((sign, right, stop), e)) :
    stop = e ∧ Derives c (branch .binaryExpression c stop [left, sign, right]) e := by
  obtain ⟨⟨sign', d₁⟩, hsign, h⟩ := Option.bind_eq_some_iff.1 h
  obtain ⟨⟨right', d₂⟩, hright, h⟩ := Option.bind_eq_some_iff.1 h
  cases h
  obtain ⟨fsign, ssign⟩ := leaf_reads Lexeme.operator_forms Lexeme.operator_splits rfl hsign
  obtain ⟨fright, sright⟩ := operand_reads hinner hright
  refine ⟨rfl, .branch rfl rfl ?_ (.child hleft (.blank (.child fsign (.blank fright.fills))))⟩
  rw [Rule.layout, Layout.admits, Slot.admitsEach, Slot.admitsEach, Slot.admitsEach, hslot, ssign,
    sright]
  rfl

/-- A chain of operators that is folded to the left is an expression if its head is. -/
theorem links_reads (hinner : inner.Reads (.category .expression)) {k : Nat} {c d e : Cursor}
    {head : Tree} {links : List (Tree × Tree × Cursor)}
    (h : repeated (link n inner) k d = (links, e)) (hhead : Derives c head d)
    (hslot : (Slot.category .expression).admits head = true) :
    Derives c (links.foldl
      (fun left (sign, right, stop) => branch .binaryExpression c stop [left, sign, right]) head) e ∧
    (Slot.category .expression).admits (links.foldl
      (fun left (sign, right, stop) => branch .binaryExpression c stop [left, sign, right])
      head) = true := by
  induction k generalizing d head links with
  | zero => cases h; exact ⟨hhead, hslot⟩
  | succ k ih =>
    rw [repeated] at h
    split at h
    · cases h; exact ⟨hhead, hslot⟩
    · next link d' hlink =>
      obtain ⟨sign, right, stop⟩ := link
      generalize hrest : repeated _ k d' = rest at h
      obtain ⟨more, e'⟩ := rest
      cases h
      obtain ⟨rfl, hnext⟩ := link_reads hinner hhead hslot hlink
      rw [List.foldl_cons]
      exact ih hrest hnext rfl

/-- A chain of operators is read as an expression. -/
theorem chain_reads (hinner : inner.Reads (.category .expression)) :
    (chain n inner).Reads (.category .expression) := by
  intro c t d h
  obtain ⟨⟨head, d₁⟩, hhead, h⟩ := Option.bind_eq_some_iff.1 h
  dsimp only at h
  generalize hlinks : repeated (link n inner) n d₁ = links at h
  obtain ⟨links, e⟩ := links
  cases h
  obtain ⟨hderives, hslot⟩ := either_reads (call_reads hinner)
    (wrap_reads (operand_reads hinner) rfl rfl).category hhead
  exact links_reads hinner hlinks hderives hslot

/-- **Expressions of any nesting are derived.** -/
theorem expressionAt_reads (n : Nat) : (expressionAt n).Reads (.category .expression) := by
  induction n with
  | zero => exact fun c t d h => nomatch h
  | succ n ih => exact chain_reads ih

/-! ## Sources -/

/-- An item of a source is read with its semicolon. -/
theorem itemElement_reads (hinner : inner.Reads (.category .expression)) :
    (itemElement n inner).Reads (.rule .itemElement) := by
  intro c t d h
  obtain ⟨⟨t', d'⟩, hitem, h⟩ := Option.bind_eq_some_iff.1 h
  obtain ⟨e, hsign, h⟩ := Option.bind_eq_some_iff.1 h
  cases h
  obtain ⟨hderives, hslot⟩ := item_reads hinner hitem
  refine branch_reads rfl rfl ?_
    (.child hderives (.blank ((only_exactly [';']).fills (by decide) hsign .done)))
  rw [Rule.layout, Layout.admits, Slot.admitsEach, hslot]
  rfl

/-- An element of a source is read as an item or a comment. -/
theorem elementWith_reads (hinner : inner.Reads (.category .expression)) :
    (elementWith n inner).Reads (.category .element) :=
  either_reads
    (wrap_reads (leaf_reads Lexeme.docComment_forms Lexeme.docComment_splits rfl) rfl rfl).category
    (itemElement_reads hinner).category

/-- The elements of a source cover it up to where no more can be read. -/
theorem elements_fills {c d : Cursor} {ts : List Tree} (h : elements c = (ts, d)) :
    Fills .program c ts d ∧ ts.all (Slot.category .element).admits = true := by
  rw [elements] at h
  dsimp only at h
  generalize hrun : repeated _ c.rest.length c = run at h
  obtain ⟨us, e⟩ := run
  cases h
  have hstep : ∀ ⦃c' t d⦄,
      elementWith c.rest.length (expressionAt (c.rest.length + 1)) c'.skipBlank = some (t, d) →
      Fills .program c' [t] d ∧ (Slot.category .element).admits t = true := by
    intro c' t d h
    obtain ⟨hderives, hslot⟩ := elementWith_reads (expressionAt_reads _) h
    exact ⟨.blank hderives.fills, hslot⟩
  obtain ⟨hfills, hall⟩ := repeated_fills hstep hrun
  have hwhole := hfills.append (.blank .done)
  rw [List.append_nil] at hwhole
  exact ⟨hwhole, hall⟩

end Grammar

/-! ## Parse trees -/

/-- What a tree that was read is made of, with its root. -/
theorem Tree.ofSource_root {source : String} {tree : Tree} (h : ofSource source = .ok tree) :
    ∃ (ts : List Tree) (stop : Cursor),
      tree = .node .program
        (String.ofList (dropTrailingBlank (Cursor.ofSource source).skipBlank.rest))
        (some (Cursor.ofSource source).skipBlank.offset) ts ∧
      Grammar.elements (Cursor.ofSource source).skipBlank = (ts, stop) ∧ stop.rest = [] := by
  rw [ofSource] at h
  dsimp only at h
  generalize hrun : Grammar.elements (Cursor.ofSource source).skipBlank = run at h
  obtain ⟨ts, stop⟩ := run
  dsimp only at h
  split at h
  · next hempty =>
    cases h
    exact ⟨ts, stop, rfl, rfl, List.isEmpty_iff.1 hempty⟩
  · cases h

/-- What a tree that was read is made of. -/
theorem Tree.ofSource_eq_ok {source : String} {tree : Tree} (h : ofSource source = .ok tree) :
    ∃ (text : String) (start : Nat) (ts : List Tree) (stop : Cursor),
      tree = .node .program text (some start) ts ∧
      Grammar.elements (Cursor.ofSource source).skipBlank = (ts, stop) ∧ stop.rest = [] := by
  obtain ⟨ts, stop, htree, hrun, hstop⟩ := ofSource_root h
  exact ⟨_, _, ts, stop, htree, hrun, hstop⟩

/-- **Every node of a parse tree has the children and the text of its rule.** -/
theorem Tree.ofSource_conforms {source : String} {tree : Tree} (h : ofSource source = .ok tree) :
    tree.conforms = true := by
  obtain ⟨text, start, ts, stop, rfl, hrun, -⟩ := ofSource_eq_ok h
  obtain ⟨hfills, hall⟩ := Grammar.elements_fills hrun
  exact conforms_node hall rfl hfills.conforms

/-- **Every node of a parse tree has a place in its source.** -/
theorem Tree.ofSource_isPlaced {source : String} {tree : Tree} (h : ofSource source = .ok tree) :
    tree.isPlaced = true := by
  obtain ⟨text, start, ts, stop, rfl, hrun, -⟩ := ofSource_eq_ok h
  exact (Tree.isPlaced_node ..).trans (Grammar.elements_fills hrun).1.placed

end Chainlet
