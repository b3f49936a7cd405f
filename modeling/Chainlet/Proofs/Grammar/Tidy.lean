import Chainlet.Proofs.Grammar.Elements
import Chainlet.Proofs.Grammar.Step
import Chainlet.Proofs.Grammar.Tight

/-!
# Proofs/Grammar/Tidy — every production reads tidy trees

One lemma for each production, with that for the inner expressions as an assumption; the knot is tied
in `expressionAt_trims`.  A chain starts where its head does, so each of its operators stands between
the ends of its operands (`link_trimmed`).  **Every node of the elements of a source is tidy**
(`elements_tidy`): only comments are read with the blanks behind them.
-/

namespace Chainlet

namespace Grammar

open Production

variable {n : Nat} {inner : Production} {c d e : Cursor}

/-! ## Names -/

theorem name_trims : name.Trims := leaf_trims Lexeme.name_forms Lexeme.name_splits rfl (by decide)

theorem keyword_trims : keyword.Trims :=
  leaf_trims Lexeme.keyword_forms Lexeme.keyword_splits rfl (by decide)

/-- A path begins and ends with a name. -/
theorem path_trims : (path n).Trims := by
  intro c t d h
  obtain ⟨⟨first, d₁⟩, hfirst, h⟩ := Option.bind_eq_some_iff.1 h
  dsimp only at h
  generalize hmore : repeated _ n d₁ = more at h
  obtain ⟨more, e⟩ := more
  cases h
  have hstep : ∀ ⦃c t d⦄, pointStep c = some (t, d) → TrimmedAll c [t] d := by
    intro c t d h
    obtain ⟨e, hsign, h⟩ := Option.bind_eq_some_iff.1 h
    have hpoint := exactly_tight hsign rfl
    exact (name_trims h).all_behind hpoint.reaches
  have hrest := repeated_trims hstep hmore
  exact branch_trimmed (by decide) ((name_trims hfirst).tight.trans_ends hrest.ends)
    ((name_trims hfirst).all.append hrest).tidy

/-- A type annotation begins with its colon and ends with its type. -/
theorem typeAscription_trims : typeAscription.Trims := by
  intro c t d h
  obtain ⟨d₁, hsign, h⟩ := Option.bind_eq_some_iff.1 h
  obtain ⟨⟨type, e⟩, htype, h⟩ := Option.bind_eq_some_iff.1 h
  cases h
  have hcolon := exactly_tight hsign rfl
  have hname := name_trims htype
  exact branch_trimmed (by decide) (hcolon.trans d₁.reaches_skipBlank hname.tight) hname.all.tidy

/-- A name with its type begins with the name, and ends with whichever comes last. -/
theorem typedName_trims : typedName.Trims := by
  intro c t d h
  obtain ⟨⟨label, d₁⟩, hlabel, h⟩ := Option.bind_eq_some_iff.1 h
  dsimp only at h
  generalize htype : optionalPart typeAscription d₁ = type at h
  obtain ⟨type, e⟩ := type
  cases h
  have hname := name_trims hlabel
  have hascription := optionalPart_trims typeAscription_trims htype
  exact branch_trimmed (by decide) (hname.tight.trans_ends hascription.ends)
    (hname.all.append hascription).tidy

/-- Type parameters begin and end with their brackets. -/
theorem generics_trims : (generics n).Trims := by
  intro c t d h
  obtain ⟨d₁, hopen, h⟩ := Option.bind_eq_some_iff.1 h
  dsimp only at h
  generalize hnames : separated n name d₁ = names at h
  obtain ⟨names, e⟩ := names
  dsimp only at h
  split at h
  · cases h
  · next hne =>
    obtain ⟨f, hclose, h⟩ := Option.bind_eq_some_iff.1 h
    cases h
    have hstart := exactly_tight hopen rfl
    have hstop := exactly_tight hclose rfl
    obtain ⟨htidy, ⟨rfl, -⟩ | htight⟩ := separated_trims name_trims hnames
    · exact absurd rfl hne
    · have hbetween := (d₁.reaches_skipBlank.trans htight.reaches).trans e.reaches_skipBlank
      exact branch_trimmed (by decide) (hstart.trans hbetween hstop) htidy

/-! ## Literals -/

/-- An equals sign and an expression, and blanks in front of each. -/
theorem equals_trimmed (hinner : inner.Trims) {f : Cursor} {value : Tree}
    (hsign : sign .equals d.skipBlank = some e) (hvalue : inner e.skipBlank = some (value, f)) :
    TrimmedAll d [value] f := by
  have hequals := equals_tight hsign
  exact (hinner hvalue).all_behind
    ((d.reaches_skipBlank.trans hequals.reaches).trans e.reaches_skipBlank)

theorem field_trims (hinner : inner.Trims) : (field inner).Trims := by
  intro c t d h
  obtain ⟨⟨key, d₁⟩, hkey, h⟩ := Option.bind_eq_some_iff.1 h
  obtain ⟨e, hsign, h⟩ := Option.bind_eq_some_iff.1 h
  obtain ⟨⟨value, f⟩, hvalue, h⟩ := Option.bind_eq_some_iff.1 h
  cases h
  have hname := typedName_trims hkey
  have hexpression := equals_trimmed hinner hsign hvalue
  exact branch_trimmed (by decide) (hname.tight.trans_ends hexpression.ends)
    (hname.all.append hexpression).tidy

/-- A literal is a word, or begins and ends with brackets. -/
theorem literal_trims (hinner : inner.Trims) : (literal n inner).Trims := by
  refine firstOf_trims fun p hp => ?_
  simp only [List.mem_cons, List.not_mem_nil, or_false] at hp
  obtain rfl | rfl | rfl | rfl | rfl | rfl | rfl | rfl | rfl | rfl := hp
  · exact bracketed_trims hinner (by decide) (by decide) (by decide)
  · exact bracketed_trims (field_trims hinner) (by decide) (by decide) (by decide)
  · exact bracketed_trims hinner (by decide) (by decide) (by decide)
  · exact leaf_trims Lexeme.string_forms Lexeme.string_splits rfl (by decide)
  · exact leaf_trims Lexeme.float_forms Lexeme.float_splits rfl (by decide)
  · exact leaf_trims (Lexeme.based_forms _ _) Lexeme.hex_splits rfl (by decide)
  · exact leaf_trims (Lexeme.based_forms _ _) Lexeme.binary_splits rfl (by decide)
  · exact leaf_trims (Lexeme.based_forms _ _) Lexeme.octal_splits rfl (by decide)
  · exact leaf_trims Lexeme.decimal_forms Lexeme.decimal_splits rfl (by decide)
  · exact leaf_trims Lexeme.boolean_forms Lexeme.boolean_splits rfl (by decide)

/-! ## Items -/

theorem assignment_trims (hinner : inner.Trims) : (assignment n inner).Trims := by
  intro c t d h
  obtain ⟨⟨target, d₁⟩, htarget, h⟩ := Option.bind_eq_some_iff.1 h
  obtain ⟨e, hsign, h⟩ := Option.bind_eq_some_iff.1 h
  obtain ⟨⟨value, f⟩, hvalue, h⟩ := Option.bind_eq_some_iff.1 h
  cases h
  have hpath := path_trims htarget
  have hexpression := equals_trimmed hinner hsign hvalue
  exact branch_trimmed (by decide) (hpath.tight.trans_ends hexpression.ends)
    (hpath.all.append hexpression).tidy

theorem parameter_trims (hinner : inner.Trims) : (parameter n inner).Trims :=
  either_trims (wrap_trims (literal_trims hinner) (by decide))
    (wrap_trims typedName_trims (by decide))

theorem binding_trims (hinner : inner.Trims) : (binding inner).Trims := by
  intro c t d h
  obtain ⟨d₁, hsign, h⟩ := Option.bind_eq_some_iff.1 h
  obtain ⟨⟨body, e⟩, hbody, h⟩ := Option.bind_eq_some_iff.1 h
  cases h
  have hequals := equals_tight hsign
  have hexpression := hinner hbody
  exact branch_trimmed (by decide) (hequals.trans d₁.reaches_skipBlank hexpression.tight)
    hexpression.all.tidy

/-- A definition begins with its keyword, and ends with its last part that is not missing. -/
theorem definition_trims (hinner : inner.Trims) : (definition n inner).Trims := by
  intro c t d h
  obtain ⟨⟨word, d₁⟩, hword, h⟩ := Option.bind_eq_some_iff.1 h
  obtain ⟨⟨label, d₂⟩, hlabel, h⟩ := Option.bind_eq_some_iff.1 h
  dsimp only at h
  generalize htypes : optionalPart (generics n) d₂ = types at h
  obtain ⟨types, d₃⟩ := types
  dsimp only at h
  generalize hinputs : commaList n .parameters (parameter n inner) d₃ = inputs at h
  obtain ⟨inputs, d₄⟩ := inputs
  dsimp only at h
  generalize hbody : optionalPart (binding inner) d₄ = body at h
  obtain ⟨body, d₅⟩ := body
  cases h
  have hkeyword := keyword_trims hword
  have hname := (typedName_trims hlabel).all_behind d₁.reaches_skipBlank
  have hgenerics := optionalPart_trims generics_trims htypes
  have hparameters := commaList_trims (parameter_trims hinner) (by decide) hinputs
  have hbinding := optionalPart_trims (binding_trims hinner) hbody
  have htail := hname.append (hgenerics.append (hparameters.append hbinding))
  exact branch_trimmed (by decide) (hkeyword.tight.trans_ends htail.ends)
    (hkeyword.all.append htail).tidy

theorem statement_trims (hinner : inner.Trims) : (statement n inner).Trims :=
  either_trims (wrap_trims (definition_trims hinner) (by decide))
    (wrap_trims (assignment_trims hinner) (by decide))

theorem item_trims (hinner : inner.Trims) : (item n inner).Trims :=
  either_trims (wrap_trims (statement_trims hinner) (by decide)) (wrap_trims hinner (by decide))

/-! ## Operands -/

theorem itemStep_trims (hinner : inner.Trims) {t : Tree} (h : itemStep n inner c = some (t, d)) :
    TrimmedAll c [t] d := by
  obtain ⟨⟨t', d'⟩, hitem, h⟩ := Option.bind_eq_some_iff.1 h
  obtain ⟨e, hsign, h⟩ := Option.bind_eq_some_iff.1 h
  cases h
  have hsemicolon := exactly_tight hsign rfl
  have htail : d'.Ends d := d'.reaches_skipBlank.ends hsemicolon
  have hone := (item_trims hinner hitem).all_behind c.reaches_skipBlank
  exact ⟨hone.ends.trans htail, hone.tidy⟩

/-- A block begins and ends with its braces. -/
theorem block_trims (hinner : inner.Trims) : (block n inner).Trims := by
  intro c t d h
  obtain ⟨d₁, hopen, h⟩ := Option.bind_eq_some_iff.1 h
  dsimp only at h
  generalize hitems : repeated _ n d₁ = items at h
  obtain ⟨items, e⟩ := items
  obtain ⟨f, hclose, h⟩ := Option.bind_eq_some_iff.1 h
  cases h
  have hinside : TrimmedAll d₁ items e := repeated_trims (fun _ _ _ => itemStep_trims hinner) hitems
  have hstart := exactly_tight hopen rfl
  have hstop := exactly_tight hclose rfl
  exact branch_trimmed (by decide)
    (hstart.trans (hinside.ends.reaches.trans e.reaches_skipBlank) hstop) hinside.tidy

/-- A group begins and ends with its parentheses. -/
theorem group_trims (hinner : inner.Trims) : (group inner).Trims := by
  intro c t d h
  obtain ⟨d₁, hopen, h⟩ := Option.bind_eq_some_iff.1 h
  obtain ⟨⟨body, e⟩, hbody, h⟩ := Option.bind_eq_some_iff.1 h
  obtain ⟨f, hclose, h⟩ := Option.bind_eq_some_iff.1 h
  cases h
  have hstart := exactly_tight hopen rfl
  have hstop := exactly_tight hclose rfl
  have hexpression := (hinner hbody).all_behind d₁.reaches_skipBlank
  exact branch_trimmed (by decide)
    (hstart.trans (hexpression.ends.reaches.trans e.reaches_skipBlank) hstop) hexpression.tidy

theorem operand_trims (hinner : inner.Trims) : (operand n inner).Trims := by
  refine firstOf_trims fun p hp => ?_
  simp only [List.mem_cons, List.not_mem_nil, or_false] at hp
  obtain rfl | rfl | rfl | rfl := hp
  · exact wrap_trims (literal_trims hinner) (by decide)
  · exact group_trims hinner
  · exact wrap_trims (block_trims hinner) (by decide)
  · exact wrap_trims path_trims (by decide)

/-! ## Expressions -/

/-- A call begins with its function, and ends with its last argument if it has one. -/
theorem callOf_trims {rule : Rule} {callee : Production} (hinner : inner.Trims)
    (hcallee : callee.Trims) (hrule : rule ≠ .binaryExpression) :
    (callOf n inner rule callee).Trims := by
  intro c t d h
  obtain ⟨⟨target, d₁⟩, htarget, h⟩ := Option.bind_eq_some_iff.1 h
  dsimp only at h
  generalize harguments : commaList n .arguments inner d₁ = arguments at h
  obtain ⟨arguments, e⟩ := arguments
  cases h
  have hname := hcallee htarget
  have hlist := commaList_trims hinner (by decide) harguments
  exact branch_trimmed hrule (hname.tight.trans_ends hlist.ends) (hname.all.append hlist).tidy

theorem call_trims (hinner : inner.Trims) : (call n inner).Trims := by
  intro c t d h
  obtain ⟨d₁, hsign, h⟩ := Option.bind_eq_some_iff.1 h
  obtain ⟨⟨target, e⟩, htarget, h⟩ := Option.bind_eq_some_iff.1 h
  cases h
  have hampersand := exactly_tight hsign rfl
  have hcall := either_trims (callOf_trims hinner keyword_trims (by decide))
    (callOf_trims hinner path_trims (by decide)) htarget
  exact branch_trimmed (by decide) (hampersand.trans d₁.reaches_skipBlank hcall.tight)
    hcall.all.tidy

/-- **One more operator stands between the start of what was read before and the end of its right
operand.** -/
theorem link_trimmed (hreads : inner.Reads (.category .expression)) (hinner : inner.Trims)
    {stop : Cursor} {left sign right : Tree} (hderives : Derives c left d)
    (hleft : Trimmed c left d) (h : link n inner d = some ((sign, right, stop), e)) :
    Trimmed c (branch .binaryExpression c stop [left, sign, right]) e := by
  obtain ⟨⟨sign', d₁⟩, hsign, h⟩ := Option.bind_eq_some_iff.1 h
  obtain ⟨⟨right', d₂⟩, hright, h⟩ := Option.bind_eq_some_iff.1 h
  cases h
  have hoperator := (leaf_trims Lexeme.operator_forms Lexeme.operator_splits rfl (by decide)
    hsign).all_behind d.reaches_skipBlank
  have hoperand := (operand_trims hinner hright).all_behind d₁.reaches_skipBlank
  have hmore := hoperator.append hoperand
  have htight : c.Tight e := hleft.tight.trans_ends hmore.ends
  refine ⟨htight, htight.isTrimmed_textTo, Tree.allTidy_node ⟨fun _ _ => htight.isTrimmed_textTo,
    fun _ => ⟨left, sign, right, rfl, ?_, ?_⟩⟩ (hleft.all.append hmore).tidy⟩
  · rw [hderives.span_eq]
    rfl
  · rw [((operand_reads hreads) hright).1.span_eq]
    exact htight.reaches.utf8ByteSize_textTo

/-- A chain of operators that is folded to the left is read tightly if its head is. -/
theorem links_trimmed (hreads : inner.Reads (.category .expression)) (hinner : inner.Trims)
    {k : Nat} {head : Tree} {links : List (Tree × Tree × Cursor)}
    (h : repeated (link n inner) k d = (links, e)) (hderives : Derives c head d)
    (hslot : (Slot.category .expression).admits head = true) (hhead : Trimmed c head d) :
    Trimmed c (foldLinks c head links) e := by
  induction k generalizing d head links with
  | zero => cases h; exact hhead
  | succ k ih =>
    rw [repeated] at h
    split at h
    · cases h; exact hhead
    · next link d' hlink =>
      obtain ⟨sign, right, stop⟩ := link
      generalize hrest : repeated _ k d' = rest at h
      obtain ⟨more, e'⟩ := rest
      cases h
      have hnext := link_trimmed hreads hinner hderives hhead hlink
      obtain ⟨rfl, hderives'⟩ := link_reads hreads hderives hslot hlink
      rw [foldLinks, List.foldl_cons]
      exact ih hrest hderives' rfl hnext

/-- A chain of operators begins with its first operand and ends with its last one. -/
theorem chain_trims (hreads : inner.Reads (.category .expression)) (hinner : inner.Trims) :
    (chain n inner).Trims := by
  intro c t d h
  obtain ⟨⟨head, d₁⟩, hhead, h⟩ := Option.bind_eq_some_iff.1 h
  dsimp only at h
  generalize hlinks : repeated (link n inner) n d₁ = links at h
  obtain ⟨links, e⟩ := links
  cases h
  obtain ⟨hderives, hslot⟩ := chainHead_reads hreads hhead
  exact links_trimmed hreads hinner hlinks hderives hslot
    (either_trims (call_trims hinner) (wrap_trims (operand_trims hinner) (by decide)) hhead)

/-- **Expressions of any nesting are read tightly.** -/
theorem expressionAt_trims (n : Nat) : (expressionAt n).Trims := by
  induction n with
  | zero => exact fun c t d h => absurd h (Option.some_ne_none _).symm
  | succ n ih => exact chain_trims (expressionAt_reads n) ih

/-! ## Sources -/

/-- An item of a source ends with its semicolon. -/
theorem itemElement_trims (hinner : inner.Trims) : (itemElement n inner).Trims := by
  intro c t d h
  obtain ⟨⟨t', d'⟩, hitem, h⟩ := Option.bind_eq_some_iff.1 h
  obtain ⟨e, hsign, h⟩ := Option.bind_eq_some_iff.1 h
  cases h
  have hsemicolon := exactly_tight hsign rfl
  have hone := item_trims hinner hitem
  exact branch_trimmed (by decide) (hone.tight.trans d'.reaches_skipBlank hsemicolon) hone.all.tidy

/-- A comment is tidy whatever its text. -/
theorem docElement_tidy {t : Tree}
    (h : wrap .docElement (leaf .docComment .docComment) c = some (t, d)) : t.AllTidy := by
  obtain ⟨⟨comment, d'⟩, hread, h⟩ := Option.bind_eq_some_iff.1 h
  cases h
  obtain ⟨⟨word, rest⟩, -, heq⟩ := Option.map_eq_some_iff.1 hread
  cases heq
  refine Tree.allTidy_node (Tree.tidy_of_comment (.inl rfl)) (List.forall_mem_singleton.2 ?_)
  exact Tree.allTidy_node (Tree.tidy_of_comment (.inr rfl)) fun _ h => absurd h List.not_mem_nil

/-- All nodes of an element of a source are tidy. -/
theorem elementWith_tidy (hinner : inner.Trims) {t : Tree}
    (h : elementWith n inner c = some (t, d)) : t.AllTidy := by
  rw [elementWith, either] at h
  cases hread : wrap .docElement (leaf .docComment .docComment) c with
  | none => exact (itemElement_trims hinner (by simpa [hread] using h)).tidy
  | some r =>
    obtain ⟨u, e⟩ := r
    have hu : some (u, e) = some (t, d) := by simpa [hread] using h
    cases hu
    exact docElement_tidy hread

/-- **Every node of the elements of a source is tidy.** -/
theorem elements_tidy {ts : List Tree} (h : elements c = (ts, d)) : ∀ t ∈ ts, t.AllTidy := by
  obtain ⟨e, hsteps, -, -⟩ := steps_of_elements h
  clear h
  generalize c.rest.length = n at hsteps
  induction hsteps with
  | nil => exact fun _ h => absurd h List.not_mem_nil
  | cons hstep _ ih =>
    exact List.forall_mem_cons.2 ⟨elementWith_tidy (expressionAt_trims _) hstep, ih⟩

end Grammar

end Chainlet
