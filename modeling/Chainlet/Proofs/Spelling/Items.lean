import Chainlet.Proofs.Spelling.Chains

/-!
# Proofs/Spelling/Items — assignments, definitions, and expressions that stand alone

The parts of a definition that may be missing are told apart by the character behind them.  An
expression that stands alone is tried as a statement first, and no statement is read from its words
(`statement_rejects`): a path has no equals sign behind it, and a word like `@true` no name.
-/

namespace Chainlet

open Production Grammar

variable {k n m : Nat} {ws us vs : List Word} {wss : List (List Word)} {rest : List Word}
  {span : Option Span}

/-! ## Assignments -/

/-- A semicolon ends any expression. -/
theorem Opens.endsExpression (h : Opens (· == ';') rest) (calls : Bool) :
    Opens (endsExpression calls) rest :=
  h.mono fun c hc => by rw [beq_iff_eq.1 hc]; rfl

/-- An assignment is read as its path, an equals sign and its value. -/
theorem assignment_accepts {target : Path} {value : Expression} (htarget : target.isWritable = true)
    (hvalue : value.Accepted true us) (hopens : Opens startsExpression us) (hn : k ≤ n + 1)
    (hm : k ≤ m) :
    Accepts k (wrap .assignmentStatement (assignment n (expressionAt m))) (· == ';')
      (target.word :: ['='] :: us) (Statement.MeantBy (.assignment target value span)) := by
  intro c rest hlength hlaid ho
  have hequals : Opens (· == '=') (['='] :: us ++ rest) := opens_cons [] _ rfl
  obtain ⟨t, d, hpath, hmeans, hd⟩ :=
    path_accepts htarget (n := n) (Nat.lt_of_lt_of_le hlength hn) hlaid hequals
  have hlt := path_reads.length_lt rfl hpath
  have hskip := d.length_skipBlank
  obtain ⟨e, u, f, hsign, hread, hmeans', hf⟩ := hvalue.behindEquals (m := m) hopens (by omega)
    (hd.skip (opens_cons [] _ rfl)) (ho.endsExpression true)
  refine ⟨branch .assignmentStatement c f [branch .assignment c f [t, u]], f, ?_,
    assignmentStatement_means hmeans hmeans', hf⟩
  refine Option.bind_eq_some_iff.2 ⟨(branch .assignment c f [t, u], f), ?_, rfl⟩
  exact Option.bind_eq_some_iff.2 ⟨_, hpath, Option.bind_eq_some_iff.2 ⟨e, hsign,
    Option.bind_eq_some_iff.2 ⟨_, hread, rfl⟩⟩⟩

/-! ## Parts of a definition -/

/-- The characters behind the parameters of a definition. -/
def behindParameters (c : Char) : Bool := c == '=' || c == ';'

/-- The characters behind the generics of a definition. -/
def behindGenerics (c : Char) : Bool := startsOperand c || behindParameters c

/-- The characters behind the name of a definition. -/
def behindName (c : Char) : Bool := c == '<' || behindGenerics c

/-- No blank stands first behind the parameters. -/
theorem isVisible_of_behindParameters {c : Char} (h : behindParameters c = true) :
    isVisible c = true := by
  rw [behindParameters, Bool.or_eq_true, beq_iff_eq, beq_iff_eq] at h
  obtain rfl | rfl := h <;> rfl

/-- No blank stands first behind the type parameters. -/
theorem isVisible_of_behindGenerics {c : Char} (h : behindGenerics c = true) :
    isVisible c = true := by
  rw [behindGenerics, Bool.or_eq_true] at h
  obtain h | h := h
  · exact isVisible_of_startsExpression (startsExpression_of_startsOperand h)
  · exact isVisible_of_behindParameters h

theorem isVisible_of_behindName {c : Char} (h : behindName c = true) : isVisible c = true := by
  rw [behindName, Bool.or_eq_true, beq_iff_eq] at h
  obtain rfl | h := h
  · rfl
  · exact isVisible_of_behindGenerics h

/-- Type parameters are read if there are any, and left out otherwise. -/
theorem generics_present {g : Option Generics} (h : g.all Generics.isWritable = true) {c : Cursor}
    (hlength : c.rest.length < n + 1) (hlaid : Trails (genericsWords g ++ rest) c.rest)
    (ho : Opens behindGenerics rest) :
    ∃ t d, optionalPart (generics n) c = (t, d) ∧ MeansOption Generics.MeantBy g t ∧
      Trails rest d.rest := by
  cases g with
  | none =>
    refine ⟨absent .optional c, c, ?_, .absent _ _, hlaid⟩
    refine optionalPart_absent generics_startsWith hlaid
      (ho.mono fun _ => isVisible_of_behindGenerics) ho fun c hc => ?_
    rw [beq_eq_false_iff_ne]
    rintro rfl
    exact absurd hc (by decide)
  | some g =>
    obtain ⟨t, d, hread, hmeans, hd⟩ :=
      optionalPart_present (generics_accepts h) (opens_cons [] _ rfl) hlength hlaid ho
    exact ⟨t, d, hread, .present hmeans, hd⟩

/-- A comma, or what is behind the parameters. -/
def behindParameter (c : Char) : Bool := c == ',' || behindParameters c

/-- Parameters that are read from words, before what follows one. -/
def Parameter.Accepted (p : Parameter) (ws : List Word) : Prop :=
  ∀ ⦃k n m : Nat⦄, k ≤ n + 1 → k ≤ m + 1 →
    Accepts k (parameter n (expressionAt m)) behindParameter ws p.MeantBy

/-- A parameter that is a pattern is read as its literal. -/
theorem pattern_accepted {v : Literal} (h : v.Accepted ws) : Parameter.Accepted (.pattern v) ws := by
  intro k n m hn hm
  exact either_accepts_left (wrap_accepts (h hn hm) fun _ _ _ => literalParameter_means)

/-- A parameter that is a name is read with its type. -/
theorem named_accepted {name : TypedName} (h : name.isWritable = true) :
    Parameter.Accepted (.named name) name.words := by
  intro k n m _ _
  refine either_accepts_right (rejects_of_startsWith (wrap_startsWith literal_startsWith _)
    (opens_typedName h) fun _ => not_startsLiteral_of_isNameStart)
    (wrap_accepts (typedName_accepts h fun c hc => ?_) fun _ _ _ => namedParameter_means)
  simp only [behindParameter, behindParameters, Bool.or_eq_true, beq_iff_eq] at hc
  obtain rfl | rfl | rfl := hc <;> exact ⟨rfl, rfl⟩

/-- The parameters of a definition are read into their list. -/
theorem parameters_accepted {ps : List Parameter} (h : List.Forall₂
      (fun p ws => Parameter.Accepted p ws ∧ Opens startsOperand ws) ps wss) {c : Cursor}
    (hlength : c.rest.length < k) (hn : k ≤ n + 1) (hm : k ≤ m + 1)
    (hlaid : Trails (commaSeparated wss ++ rest) c.rest) (ho : Opens behindParameters rest) :
    ∃ t d, commaList n .parameters (parameter n (expressionAt m)) c = (t, d) ∧
      (∃ text start ts, t = .node .parameters text start ts ∧
        List.Forall₂ Parameter.MeantBy ps ts) ∧ Trails rest d.rest := by
  have heach : List.Forall₂ (fun p ws => Accepts k (parameter n (expressionAt m)) behindParameter
      ws (Parameter.MeantBy p) ∧ Opens isVisible ws) ps wss :=
    h.imp fun _ _ hboth => ⟨hboth.1 hn hm, hboth.2.mono fun _ hc =>
      isVisible_of_startsExpression (startsExpression_of_startsOperand hc)⟩
  have hvisible : Opens isVisible rest := ho.mono fun _ => isVisible_of_behindParameters
  refine commaList_accepts rfl heach (parameter_reads (expressionAt_reads m)) rfl hlength
    (by omega) hlaid (ho.mono fun c hc => by rw [behindParameter, hc, Bool.or_true]) fun d hd => ?_
  refine ⟨parameter_startsWith.fails ((hd.skip hvisible).not_any ho fun c hc => ?_),
    commaStep_none hd hvisible ho fun c hc => ?_⟩
  · rw [behindParameters, Bool.or_eq_true, beq_iff_eq, beq_iff_eq] at hc
    obtain rfl | rfl := hc <;> rfl
  · rw [behindParameters, Bool.or_eq_true, beq_iff_eq, beq_iff_eq] at hc
    obtain rfl | rfl := hc <;> rfl

/-- Bodies of definitions that are read from words, before the end of an item. -/
def Binding.Accepted (b : Binding) (ws : List Word) : Prop :=
  ∀ m, Accepts m (binding (expressionAt m)) (· == ';') ws b.MeantBy

/-- A binding from the expression behind its equals sign. -/
theorem binding_accepted {b : Binding} {calls : Bool} {e : Expression} (h : e.Accepted calls us)
    (hopens : Opens startsExpression us)
    (hmeans : ∀ text start t, e.MeantBy t → b.MeantBy (.node .binding text start [t])) :
    Binding.Accepted b (['='] :: us) := by
  intro m c rest hlength hlaid ho
  obtain ⟨d, t, f, hsign, hread, ht, hf⟩ :=
    h.behindEquals hopens hlength hlaid (ho.endsExpression calls)
  exact ⟨branch .binding c f [t], f,
    Option.bind_eq_some_iff.2 ⟨d, hsign, Option.bind_eq_some_iff.2 ⟨_, hread, rfl⟩⟩,
    hmeans _ _ t ht, hf⟩

/-- A body that is written as an operand. -/
theorem operandBinding_accepted {body : Operand} (h : body.Accepted us)
    (hopens : Opens startsOperand us) : Binding.Accepted ⟨body, span⟩ (['='] :: us) :=
  binding_accepted ((operand_chained h hopens).accepted true)
    (hopens.mono fun _ => startsExpression_of_startsOperand) fun _ _ _ => operandBinding_means

/-- A body is read if there is one, and left out otherwise. -/
theorem binding_present {b : Option Binding} {c : Cursor} (hlength : c.rest.length < m)
    (h : (b = none ∧ us = []) ∨ ∃ b', b = some b' ∧ b'.Accepted us ∧ Opens (· == '=') us)
    (hlaid : Trails (us ++ rest) c.rest) (ho : Opens (· == ';') rest) :
    ∃ t d, optionalPart (binding (expressionAt m)) c = (t, d) ∧
      MeansOption Binding.MeantBy b t ∧ Trails rest d.rest := by
  obtain ⟨rfl, rfl⟩ | ⟨b', rfl, hb, hopens⟩ := h
  · refine ⟨absent .optional c, c, ?_, .absent _ _, hlaid⟩
    exact optionalPart_absent binding_startsWith hlaid
      (ho.mono fun c hc => by rw [beq_iff_eq.1 hc]; rfl) ho fun c hc => by rw [beq_iff_eq.1 hc]; rfl
  · obtain ⟨t, d, hread, hmeans, hd⟩ := optionalPart_present (hb m)
      (hopens.mono fun c hc => by rw [beq_iff_eq.1 hc]; rfl) hlength hlaid ho
    exact ⟨t, d, hread, .present hmeans, hd⟩

/-! ## Definitions -/

theorem opens_genericsWords {g : Option Generics} (ho : Opens behindGenerics rest) :
    Opens behindName (genericsWords g ++ rest) := by
  cases g with
  | none => exact ho.mono fun c hc => by rw [behindName, hc, Bool.or_true]
  | some g => exact opens_cons [] _ rfl

/-- **A definition**, of which the words are those of its parts one after the other. -/
theorem definition_accepts {keyword : String} {name : TypedName} {generics : Option Generics}
    {parameters : List Parameter} {binding : Option Binding}
    (hkeyword : Form.keyword keyword.toList = true) (hname : name.isWritable = true)
    (hgenerics : generics.all Generics.isWritable = true)
    (hparameters : List.Forall₂
      (fun p ws => Parameter.Accepted p ws ∧ Opens startsOperand ws) parameters wss)
    (hbinding : (binding = none ∧ us = []) ∨
      ∃ b, binding = some b ∧ b.Accepted us ∧ Opens (· == '=') us)
    (hn : k ≤ n + 1) (hm : k ≤ m) :
    Accepts k (definition n (expressionAt m)) (· == ';')
      (keyword.toList :: (name.words ++ (genericsWords generics ++ (commaSeparated wss ++ us))))
      (Definition.MeantBy ⟨keyword, name, generics, parameters, binding, span⟩) := by
  intro c rest hlength hlaid ho
  rw [List.cons_append, List.append_assoc, List.append_assoc, List.append_assoc] at hlaid
  -- what comes first behind each part, from the last one to the first
  have hbehindParameters : Opens behindParameters (us ++ rest) := by
    obtain ⟨-, rfl⟩ | ⟨b, -, -, hopens⟩ := hbinding
    · exact ho.mono fun c hc => by rw [beq_iff_eq.1 hc]; rfl
    · exact (hopens.mono fun c hc => by rw [beq_iff_eq.1 hc]; rfl).append rest
  have hbehindGenerics : Opens behindGenerics (commaSeparated wss ++ (us ++ rest)) :=
    opens_commaSeparated
      (hparameters.imp fun _ _ hboth => hboth.2.mono fun c hc => by
        rw [behindGenerics, hc, Bool.true_or])
      (hbehindParameters.mono fun c hc => by rw [behindGenerics, hc, Bool.or_true])
  have hbehindName := opens_genericsWords (g := generics) hbehindGenerics
  have hvisible := ((opens_typedName hname).mono fun _ => isVisible_of_isNameStart).append
    (genericsWords generics ++ (commaSeparated wss ++ (us ++ rest)))
  obtain ⟨word, d₁, hword, hleaf, hd₁⟩ := keyword_accepts hkeyword hlength hlaid hvisible
  have hlt₁ := keyword_reads.length_lt rfl hword
  have hskip₁ := d₁.length_skipBlank
  obtain ⟨label, d₂, hlabel, hlabelMeans, hd₂⟩ := typedName_accepts (n := m) hname
    (fun c hc => ⟨isVisible_of_behindName hc, by
      rw [beq_eq_false_iff_ne]
      rintro rfl
      exact absurd hc (by decide)⟩) (by omega) (hd₁.skip hvisible) hbehindName
  have hlt₂ := typedName_reads.length_lt rfl hlabel
  obtain ⟨types, d₃, htypes, htypesMean, hd₃⟩ :=
    generics_present (n := n) hgenerics (by omega) hd₂ hbehindGenerics
  have hle₃ :=
    @Fills.length_le .definition _ _ _ (optionalPart_fills generics_reads htypes).1
  obtain ⟨inputs, d₄, hinputs, hinputsMean, hd₄⟩ := parameters_accepted hparameters (k := k)
    (by omega) hn (Nat.le_succ_of_le hm) hd₃ hbehindParameters
  have hle₄ := @Fills.length_le .definition _ _ _ (commaList_fills
    (parameter_reads (expressionAt_reads m)) rfl rfl rfl (by decide) rfl hinputs).1
  obtain ⟨body, d₅, hbody, hbodyMeans, hd₅⟩ :=
    binding_present (m := m) (by omega) hbinding hd₄ ho
  refine ⟨branch .definition c d₅ [word, label, types, inputs, body], d₅, ?_,
    definition_means hleaf hlabelMeans htypesMean hinputsMean hbodyMeans, hd₅⟩
  refine Option.bind_eq_some_iff.2 ⟨_, hword, Option.bind_eq_some_iff.2 ⟨_, hlabel, ?_⟩⟩
  dsimp only
  rw [htypes]
  dsimp only
  rw [hinputs]
  dsimp only
  rw [hbody]
  rfl

/-! ## Expressions that stand alone -/

theorem wrap_rejects {p : Production} {rule : Rule} {stop : Char → Bool}
    (h : Rejects k p stop ws) : Rejects k (wrap rule p) stop ws := by
  intro c rest hlength hlaid ho
  rw [wrap, h hlength hlaid ho]
  rfl

theorem either_rejects {p q : Production} {stop : Char → Bool} (hp : Rejects k p stop ws)
    (hq : Rejects k q stop ws) : Rejects k (either p q) stop ws := by
  intro c rest hlength hlaid ho
  rw [either, hp hlength hlaid ho, hq hlength hlaid ho]
  rfl

/-- An operator that starts with an equals sign is none. -/
theorem equals_operator_none {o tail : List Char} (h : Form.operator o = true) :
    Lexeme.equals (o ++ tail) = none := by
  cases hread : Lexeme.equals (o ++ tail) with
  | none => rfl
  | some r =>
    obtain ⟨hexactly, hrest⟩ := Lexeme.checked_eq_some.1 (show _ = some (r.1, r.2) from hread)
    obtain ⟨-, htext⟩ := Lexeme.exactly_eq_some.1 hexactly
    rw [Form.operator, Bool.and_eq_true, Bool.and_eq_true] at h
    obtain ⟨hne, hword, hall⟩ := h
    cases o with
    | nil => cases hne
    | cons c cs =>
      rw [List.singleton_append, List.cons_append, List.cons.injEq] at htext
      cases cs with
      | nil =>
        rw [htext.1] at hword
        exact absurd hword (by decide)
      | cons d ds =>
        rw [← htext.2] at hrest
        rw [List.all_cons, List.all_cons, Bool.and_eq_true, Bool.and_eq_true] at hall
        have hd : isOperatorChar d = false := by simpa using hrest
        rw [hd] at hall
        exact absurd hall.2.1 (by decide)

theorem opens_behind {calls : Bool}
    (hus : us = [] ∨ ∃ o vs, us = o :: vs ∧ Form.operator o = true)
    (ho : Opens (endsExpression calls) rest) : Opens isVisible (us ++ rest) := by
  obtain rfl | ⟨o, vs, rfl, hoperator⟩ := hus
  · exact ho.mono fun _ => isVisible_of_endsExpression
  · exact (opens_operator hoperator _).mono fun _ => isVisible_of_isOperatorChar

/-- Behind the first word of an expression there is neither an equals sign nor a name. -/
theorem nothing_behind {calls : Bool} {d : Cursor}
    (hus : us = [] ∨ ∃ o vs, us = o :: vs ∧ Form.operator o = true)
    (hd : Trails (us ++ rest) d.rest) (ho : Opens (endsExpression calls) rest) :
    sign .equals d.skipBlank = none ∧ typedName d.skipBlank = none := by
  obtain rfl | ⟨o, vs, rfl, hoperator⟩ := hus
  · have hlaid := hd.skip (ho.mono fun _ => isVisible_of_endsExpression)
    refine ⟨(sign_startsWith equals_startsWith).fails (hlaid.not_any ho fun c hc => ?_),
      typedName_startsWith.fails (hlaid.not_any ho fun c hc => ?_)⟩
    · simp only [Chainlet.endsExpression, Bool.or_eq_true, Bool.and_eq_true, beq_iff_eq] at hc
      obtain rfl | rfl | ⟨-, rfl | rfl | rfl⟩ := hc
      all_goals rfl
    · simp only [Chainlet.endsExpression, Bool.or_eq_true, Bool.and_eq_true, beq_iff_eq] at hc
      obtain rfl | rfl | ⟨-, rfl | rfl | rfl⟩ := hc
      all_goals rfl
  · have hopens : Opens isOperatorChar (o :: vs ++ rest) := opens_operator hoperator _
    have hlaid := hd.skip (hopens.mono fun _ => isVisible_of_isOperatorChar)
    refine ⟨?_, typedName_startsWith.fails (hlaid.not_any hopens fun c hc => ?_)⟩
    · obtain ⟨tail, htext, -⟩ := hlaid.trails
      rw [sign, htext, equals_operator_none hoperator]
      rfl
    · have hall : operatorChars.toList.all (fun c => !isNameStart c) = true := by decide
      simpa using List.all_eq_true.1 hall c (List.contains_iff_mem.1 hc)

/-- No statement is read where an expression leads. -/
theorem statement_rejects {calls : Bool} {p : Production} (h : MayLead ws) (hn : k ≤ n + 1) :
    Rejects k (wrap .statementItem (statement n p)) (endsExpression calls) ws := by
  obtain hopens | ⟨w, us, rfl, hw, hus⟩ := h
  · refine rejects_of_startsWith (wrap_startsWith (statement_startsWith) _) hopens fun c hc => ?_
    simpa using hc
  refine wrap_rejects ?_
  obtain ⟨p, hp, rfl⟩ | hboolean := hw
  · refine either_rejects (rejects_of_startsWith (wrap_startsWith definition_startsWith _)
      ((opens_path hp).append us) fun c hc => ne_of_isNameStart hc rfl) (wrap_rejects ?_)
    intro c rest hlength hlaid ho
    obtain ⟨t, d, hread, -, hd⟩ :=
      path_accepts hp (n := n) (Nat.lt_of_lt_of_le hlength hn) hlaid (opens_behind hus ho)
    rw [assignment, hread]
    dsimp only [Option.bind_eq_bind, Option.bind_some]
    rw [(nothing_behind hus hd ho).1]
    rfl
  · have hkeyword : Form.keyword w = true := by
      rw [Form.boolean, Bool.or_eq_true, beq_iff_eq, beq_iff_eq] at hboolean
      obtain rfl | rfl := hboolean <;> rfl
    refine either_rejects (wrap_rejects ?_) (rejects_of_startsWith
      (wrap_startsWith assignment_startsWith _) ((opens_keyword hkeyword).append us) fun c hc => by
        rw [beq_iff_eq.1 hc]; rfl)
    intro c rest hlength hlaid ho
    obtain ⟨t, d, hread, -, hd⟩ :=
      keyword_accepts hkeyword hlength hlaid (opens_behind hus ho)
    rw [definition, hread]
    dsimp only [Option.bind_eq_bind, Option.bind_some]
    rw [(nothing_behind hus hd ho).2]
    rfl

/-- An item that is a statement is read as that. -/
theorem statement_accepted {s : Statement} (h : ∀ ⦃k n m : Nat⦄, k ≤ n + 1 → k ≤ m →
      Accepts k (statement n (expressionAt m)) (· == ';') ws s.MeantBy) :
    Item.Accepted (.statement s) ws := by
  intro k n m hn hm
  exact either_accepts_left (wrap_accepts (h hn hm) fun _ _ _ => statementItem_means)

/-- An item that is an expression is read as that, where it leads like no statement. -/
theorem expression_accepted {e : Expression} (h : e.Accepted true ws) (hlead : MayLead ws) :
    Item.Accepted (.expression e) ws := by
  intro k n m hn hm
  have hread : Accepts k (expressionAt m) (· == ';') ws e.MeantBy :=
    ((h m).mono hm).weaken fun c hc => by rw [beq_iff_eq.1 hc]; rfl
  have hreject : Rejects k (wrap .statementItem (statement n (expressionAt m))) (· == ';') ws :=
    fun c rest hlength hlaid ho =>
      statement_rejects hlead hn hlength hlaid (ho.endsExpression true)
  exact either_accepts_right hreject (wrap_accepts hread fun _ _ _ => expressionItem_means)

end Chainlet
