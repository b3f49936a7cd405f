import Chainlet.Program.OfSource
import Chainlet.Proofs.Grammar.Elements
import Chainlet.Proofs.Spelling.Items

/-!
# Proofs/Spelling/Complete — whatever is written down is read as what was meant

The recursion over programs puts the lemmas on its parts together, and **a source that writes a
program down is read as that program**, but for its spans (`Program.ofSource_writes`).  Nothing that
the grammar tries before the intended alternative gets in the way.
-/

namespace Chainlet

open Production Grammar

/-! ## The recursion over programs -/

mutual

/-- Expressions without calls, along their spines. -/
theorem Expression.chained : ∀ (e : Expression) {ws : List Word},
    e.isWritable false = true → e.Spells ws → e.Chained ws
  | .binary left operator right span, ws, h, hws => by
    obtain ⟨us, vs, rfl, hleft, hright⟩ := hws
    obtain ⟨hleftWritable, h⟩ := (Bool.and_eq_true ..).mp h
    obtain ⟨hoperator, hrightWritable⟩ := (Bool.and_eq_true ..).mp h
    exact binary_chained (Expression.chained left hleftWritable hleft) hoperator
      (Operand.accepted right hrightWritable hright) (Operand.opens hrightWritable hright)
  | .call c, ws, h, _ => nomatch h
  | .operand v, ws, h, hws => operand_chained (Operand.accepted v h hws) (Operand.opens h hws)

/-- **Expressions**, with a call where one may stand. -/
theorem Expression.accepted {calls : Bool} : ∀ (e : Expression) {ws : List Word},
    e.isWritable calls = true → e.Spells ws → e.Accepted calls ws
  | .binary left operator right span, ws, h, hws => by
    obtain ⟨us, vs, rfl, hleft, hright⟩ := hws
    obtain ⟨hleftWritable, h⟩ := (Bool.and_eq_true ..).mp h
    obtain ⟨hoperator, hrightWritable⟩ := (Bool.and_eq_true ..).mp h
    exact (binary_chained (Expression.chained left hleftWritable hleft) hoperator
      (Operand.accepted right hrightWritable hright)
      (Operand.opens hrightWritable hright)).accepted calls
  | .call ⟨callee, arguments, span⟩, ws, h, hws => by
    obtain ⟨wss, rfl, harguments⟩ := hws
    obtain ⟨rfl, hcall⟩ := (Bool.and_eq_true ..).mp h
    obtain ⟨hcallee, hwritable⟩ := (Bool.and_eq_true ..).mp hcall
    exact call_accepted hcallee (expressions_accepted arguments hwritable harguments)
  | .operand v, ws, h, hws =>
    (operand_chained (Operand.accepted v h hws) (Operand.opens h hws)).accepted calls

/-- An operand that can be written down is read from every spelling. -/
theorem Operand.accepted : ∀ (v : Operand) {ws : List Word},
    v.isWritable = true → v.Spells ws → v.Accepted ws
  | .literal v, ws, h, hws => literalOperand_accepted (Literal.accepted v h hws)
  | .path p, ws, h, hws => by
    obtain rfl : ws = [p.word] := hws
    exact path_accepted h
  | .block ⟨items, span⟩, ws, h, hws => by
    obtain ⟨wss, rfl, hitems⟩ := hws
    exact block_accepted (items_accepted items h hitems)
  | .group inner, ws, h, hws => by
    obtain ⟨us, rfl, hinner⟩ := hws
    exact group_accepted (Expression.accepted inner h hinner) (Expression.opens h hinner)

/-- A literal that can be written down is read from every spelling. -/
theorem Literal.accepted : ∀ (v : Literal) {ws : List Word},
    v.isWritable = true → v.Spells ws → v.Accepted ws
  | .array elements span, ws, h, hws => by
    obtain ⟨wss, hbrackets, helements⟩ := hws
    exact array_accepted (expressions_accepted elements h helements) hbrackets
  | .object fields span, ws, h, hws => by
    obtain ⟨wss, hbrackets, hfields⟩ := hws
    exact object_accepted (fields_accepted fields h hfields) hbrackets
  | .tuple elements span, ws, h, hws => by
    obtain ⟨wss, hbrackets, helements⟩ := hws
    exact tuple_accepted (expressions_accepted elements h helements) hbrackets
  | .string content span, ws, h, hws => by
    obtain rfl : ws = ['"' :: content.toList ++ ['"']] := hws
    exact string_accepted h
  | .int text base span, ws, h, hws => by
    obtain rfl : ws = [text.toList] := hws
    exact int_accepted h
  | .float value span, ws, _, hws => by
    obtain ⟨word, rfl, hform, hvalue⟩ := hws
    exact float_accepted hform hvalue
  | .boolean value span, ws, _, hws => by
    obtain rfl : ws = [(if value then "@true" else "@false").toList] := hws
    exact boolean_accepted value

/-- A field that can be written down is read from every spelling. -/
theorem Field.accepted : ∀ (x : Field) {ws : List Word},
    x.isWritable = true → x.Spells ws → x.Accepted ws
  | ⟨key, value, span⟩, ws, h, hws => by
    obtain ⟨us, rfl, hvalue⟩ := hws
    obtain ⟨hkey, hwritable⟩ := (Bool.and_eq_true ..).mp h
    exact field_accepted hkey (Expression.accepted value hwritable hvalue)
      (Expression.opens hwritable hvalue)

/-- **Items.**  An expression is not taken for a statement. -/
theorem Item.accepted : ∀ (i : Item) {ws : List Word},
    i.isWritable = true → i.Spells ws → i.Accepted ws
  | .statement (.assignment target value span), ws, h, hws => by
    obtain ⟨us, rfl, hvalue⟩ := hws
    obtain ⟨htarget, hwritable⟩ := (Bool.and_eq_true ..).mp h
    have hopens : Opens isNameStart (target.word :: ['='] :: us) := (opens_path htarget).append _
    refine statement_accepted fun k n m hn hm => either_accepts_right
      (rejects_of_startsWith (wrap_startsWith definition_startsWith _) hopens
        fun c hc => ne_of_isNameStart hc rfl) ?_
    exact assignment_accepts htarget (Expression.accepted value hwritable hvalue)
      (Expression.opens hwritable hvalue) hn hm
  | .statement (.definition ⟨keyword, name, generics, parameters, binding, span⟩), ws, h, hws => by
    obtain ⟨wss, us, rfl, hparameters, hbinding⟩ := hws
    obtain ⟨hkeyword, h⟩ := (Bool.and_eq_true ..).mp h
    obtain ⟨hname, h⟩ := (Bool.and_eq_true ..).mp h
    obtain ⟨hgenerics, h⟩ := (Bool.and_eq_true ..).mp h
    obtain ⟨hparametersWritable, hbindingWritable⟩ := (Bool.and_eq_true ..).mp h
    refine statement_accepted fun k n m hn hm => either_accepts_left ?_
    exact wrap_accepts (definition_accepts hkeyword hname hgenerics
      (parameters_each parameters hparametersWritable hparameters)
      (bindingPart_accepted binding hbindingWritable hbinding) hn hm)
      fun _ _ _ => definitionStatement_means
  | .expression e, ws, h, hws =>
    expression_accepted (Expression.accepted e h hws) (Expression.mayLead h hws)

/-- A parameter that can be written down is read from every spelling. -/
theorem Parameter.accepted : ∀ (p : Parameter) {ws : List Word},
    p.isWritable = true → p.Spells ws → p.Accepted ws ∧ Opens startsOperand ws
  | .named name, ws, h, hws => by
    obtain rfl : ws = name.words := hws
    exact ⟨named_accepted h, (opens_typedName h).mono fun _ => startsOperand_of_isNameStart⟩
  | .pattern v, ws, h, hws => ⟨pattern_accepted (Literal.accepted v h hws),
    (Literal.opens h hws).mono fun _ => startsOperand_of_startsLiteral⟩

/-- A body with the parentheses of its group, or without them. -/
theorem Binding.accepted : ∀ (b : Binding) {ws : List Word},
    b.isWritable = true → b.Spells ws → b.Accepted ws
  | ⟨.literal v, span⟩, ws, h, hws => by
    obtain ⟨us, rfl, hv⟩ := hws
    exact operandBinding_accepted (literalOperand_accepted (Literal.accepted v h hv))
      ((Literal.opens h hv).mono fun _ => startsOperand_of_startsLiteral)
  | ⟨.path p, span⟩, ws, h, hws => by
    obtain ⟨_, rfl, rfl⟩ := hws
    exact operandBinding_accepted (path_accepted h)
      ((opens_path h).mono fun _ => startsOperand_of_isNameStart)
  | ⟨.block ⟨items, span'⟩, span⟩, ws, h, hws => by
    obtain ⟨_, rfl, wss, rfl, hitems⟩ := hws
    exact operandBinding_accepted (block_accepted (items_accepted items h hitems))
      (opens_cons [] _ rfl)
  | ⟨.group inner, span⟩, ws, h, hws => by
    obtain ⟨us, rfl, hinner⟩ | ⟨hgroup, us, rfl, hinner⟩ := hws
    · exact operandBinding_accepted
        (group_accepted (Expression.accepted inner h hinner) (Expression.opens h hinner))
        (opens_cons [] _ rfl)
    · exact binding_accepted (Expression.accepted inner h hinner) (Expression.opens h hinner)
        fun _ _ _ => bareBinding_means hgroup

/-- A body is missing, or is read from every spelling. -/
theorem bindingPart_accepted : ∀ (b : Option Binding) {us : List Word},
    bindingIsWritable b = true → bindingSpells b us →
    (b = none ∧ us = []) ∨ ∃ b', b = some b' ∧ b'.Accepted us ∧ Opens (· == '=') us
  | none, _, _, hus => .inl ⟨rfl, hus⟩
  | some b, _, h, hus => .inr ⟨b, rfl, Binding.accepted b h hus, Binding.opens hus⟩

/-- Expressions in a list are read from every spelling, one by one. -/
theorem expressions_accepted : ∀ (es : List Expression) {wss : List (List Word)},
    areWritable es = true → expressionsSpell es wss → List.Forall₂
      (fun e ws => Expression.Accepted false e ws ∧ Opens startsExpression ws) es wss
  | [], wss, _, hwss => by
    obtain rfl : wss = [] := hwss
    exact .nil
  | e :: es, wss, h, hwss => by
    obtain ⟨ws, rest, rfl, hws, hrest⟩ := hwss
    obtain ⟨he, hes⟩ := (Bool.and_eq_true ..).mp h
    exact .cons ⟨Expression.accepted e he hws, Expression.opens he hws⟩
      (expressions_accepted es hes hrest)

theorem fields_accepted : ∀ (xs : List Field) {wss : List (List Word)},
    fieldsAreWritable xs = true → fieldsSpell xs wss →
    List.Forall₂ (fun x ws => Field.Accepted x ws ∧ Opens isNameStart ws) xs wss
  | [], wss, _, hwss => by
    obtain rfl : wss = [] := hwss
    exact .nil
  | x :: xs, wss, h, hwss => by
    obtain ⟨ws, rest, rfl, hws, hrest⟩ := hwss
    obtain ⟨hx, hxs⟩ := (Bool.and_eq_true ..).mp h
    exact .cons ⟨Field.accepted x hx hws, Field.opens hx hws⟩ (fields_accepted xs hxs hrest)

/-- The items of a block are read from every spelling, one by one. -/
theorem items_accepted : ∀ (is : List Item) {wss : List (List Word)},
    itemsAreWritable is = true → itemsSpell is wss →
    List.Forall₂ (fun i ws => Item.Accepted i ws ∧ Opens startsExpression ws) is wss
  | [], wss, _, hwss => by
    obtain rfl : wss = [] := hwss
    exact .nil
  | i :: is, wss, h, hwss => by
    obtain ⟨ws, rest, rfl, hws, hrest⟩ := hwss
    obtain ⟨hi, his⟩ := (Bool.and_eq_true ..).mp h
    exact .cons ⟨Item.accepted i hi hws, Item.opens hi hws⟩ (items_accepted is his hrest)

theorem parameters_each : ∀ (ps : List Parameter) {wss : List (List Word)},
    parametersAreWritable ps = true → parametersSpell ps wss →
    List.Forall₂ (fun p ws => Parameter.Accepted p ws ∧ Opens startsOperand ws) ps wss
  | [], wss, _, hwss => by
    obtain rfl : wss = [] := hwss
    exact .nil
  | p :: ps, wss, h, hwss => by
    obtain ⟨ws, rest, rfl, hws, hrest⟩ := hwss
    obtain ⟨hp, hps⟩ := (Bool.and_eq_true ..).mp h
    exact .cons (Parameter.accepted p hp hws) (parameters_each ps hps hrest)

end

/-! ## Sources -/

/-- An item of a source is read with its semicolon. -/
theorem itemElement_accepts {n : Nat} {i : Item} {us rest : List Word} (h : i.isWritable = true)
    (hus : i.Spells us) {c : Cursor} (hlength : c.rest.length ≤ n)
    (hlaid : Laid (us ++ ([[';']] ++ rest)) c.rest) :
    ∃ t d, elementWith n (expressionAt (n + 1)) c = some (t, d) ∧ (Element.item i).MeantBy t ∧
      Trails rest d.rest := by
  have hopens := Item.opens h hus
  have hcomment : wrap .docElement (leaf .docComment .docComment) c = none := by
    refine (wrap_startsWith (leaf_startsWith ((exactly_startsWith '#' ['#']).glue _) _) _).fails
      (hlaid.not_any (hopens.append _) fun c hc => ?_)
    rw [beq_eq_false_iff_ne]
    rintro rfl
    exact absurd hc (by decide)
  obtain ⟨t, d, hread, hmeans, hd⟩ := Item.accepted i h hus (Nat.le_refl (n + 1)) (Nat.le_refl _)
    (Nat.lt_succ_of_le hlength) hlaid (opens_cons [] rest rfl)
  obtain ⟨e, hsign, he⟩ := sign_trails (Lexeme.exactly_takes [';']) hd (opens_cons [] [] rfl)
  refine ⟨branch .itemElement c e [t], e, ?_, itemElement_means hmeans, he⟩
  rw [elementWith, either, hcomment]
  exact Option.bind_eq_some_iff.2 ⟨_, hread, Option.bind_eq_some_iff.2 ⟨e, hsign, rfl⟩⟩

/-- A comment ends with its line. -/
theorem docElement_accepts {n : Nat} {comment : DocComment} {rest : List Word}
    (h : (Element.docComment comment).isWritable = true) {c : Cursor}
    (hlaid : Laid (('#' :: '#' :: comment.content.toList) :: rest) c.rest) :
    ∃ t d, elementWith n (expressionAt (n + 1)) c = some (t, d) ∧
      (Element.docComment comment).MeantBy t ∧ Trails rest d.rest := by
  obtain ⟨gap, text, htext, hblank, hgap, hline, hrest⟩ := hlaid
  have hread : Lexeme.docComment c.rest
      = some ('#' :: '#' :: comment.content.toList, gap ++ text) := by
    have hstop : (gap ++ text).head?.any (· != '\n') = false := by
      cases gap with
      | nil => cases hline rfl
      | cons g gs =>
        obtain rfl : g = '\n' := Option.some.inj (hline rfl)
        rfl
    rw [htext]
    refine Lexeme.glue_eq_some.2 ⟨['#', '#'], comment.content.toList ++ (gap ++ text),
      comment.content.toList, Lexeme.exactly_append ['#', '#'] _, ?_, rfl⟩
    exact Lexeme.many_append h hstop
  obtain ⟨t, d, hleaf, hmeans, hd⟩ : ∃ t d, leaf .docComment .docComment c = some (t, d) ∧
      comment.MeantBy t ∧ d.rest = gap ++ text := by
    refine ⟨.node .docComment (String.ofList ('#' :: '#' :: comment.content.toList))
      (some c.offset) [], c.after ('#' :: '#' :: comment.content.toList) (gap ++ text), ?_,
      docComment_means ⟨_, rfl⟩, rfl⟩
    rw [leaf, hread]
    rfl
  refine ⟨branch .docElement c d [t], d, ?_, docElement_means hmeans,
    gap, text, hd, hblank, hgap, hrest⟩
  rw [elementWith, either, wrap, hleaf]
  rfl

/-- The words of an element open with a visible character. -/
theorem Element.opens {e : Element} {ws : List Word} (h : e.isWritable = true) (hws : e.Spells ws) :
    Opens isVisible ws := by
  cases e with
  | item i =>
    obtain ⟨us, rfl, hi⟩ := hws
    exact ((Item.opens h hi).mono fun _ => isVisible_of_startsExpression).append _
  | docComment comment =>
    obtain rfl : ws = ['#' :: '#' :: comment.content.toList] := hws
    exact opens_cons _ [] rfl

/-- The words of elements stand behind any blanks, if there are any words. -/
theorem skip_elements {es : List Element} (h : es.all Element.isWritable = true) {ws : List Word}
    (hws : elementsSpell es ws) {c : Cursor} {gap text : List Char} (htext : c.rest = gap ++ text)
    (hblank : gap.all isBlank = true) (hlaid : Laid ws text) : Laid ws c.skipBlank.rest := by
  change Laid ws (c.rest.dropWhile isBlank)
  have hstop : text.head?.any isBlank = false := by
    cases es with
    | nil =>
      obtain rfl : ws = [] := hws
      obtain rfl : text = [] := hlaid
      rfl
    | cons e es =>
      obtain ⟨us, vs, rfl, hus, -⟩ := hws
      rw [List.all_cons, Bool.and_eq_true] at h
      exact hlaid.not_any ((Element.opens h.1 hus).append vs) fun _ => isBlank_eq_false
  rw [htext, dropWhile_append_of_all hblank hstop]
  exact hlaid

/-- An element of a source is read in one step. -/
theorem elementStep_accepts {n : Nat} {e : Element} {ws rest : List Word}
    (h : e.isWritable = true) (hws : e.Spells ws) {c : Cursor} (hlength : c.rest.length ≤ n)
    (hlaid : Laid (ws ++ rest) c.skipBlank.rest) :
    ∃ t d, elementStep n c = some (t, d) ∧ e.MeantBy t ∧ Trails rest d.rest := by
  have hskip := c.length_skipBlank
  cases e with
  | item i =>
    obtain ⟨us, rfl, hi⟩ := hws
    rw [List.append_assoc] at hlaid
    exact itemElement_accepts h hi (by omega) hlaid
  | docComment comment =>
    obtain rfl : ws = ['#' :: '#' :: comment.content.toList] := hws
    exact docElement_accepts h hlaid

/-- **All the elements of a source**, up to its end. -/
theorem elementSteps {n : Nat} {es : List Element} (h : es.all Element.isWritable = true)
    {ws : List Word} (hws : elementsSpell es ws) {c : Cursor} (hlength : c.rest.length ≤ n)
    (hlaid : Laid ws c.skipBlank.rest) :
    ∃ ts d, Steps (elementStep n) c ts d ∧ List.Forall₂ Element.MeantBy es ts ∧
      d.skipBlank.rest = [] := by
  induction es generalizing ws c with
  | nil =>
    obtain rfl : ws = [] := hws
    exact ⟨[], c, .nil, .nil, hlaid⟩
  | cons e es ih =>
    obtain ⟨us, vs, rfl, hus, hvs⟩ := hws
    rw [List.all_cons, Bool.and_eq_true] at h
    obtain ⟨t, d, hstep, hmeans, gap, text, htext, hblank, -, hd⟩ :=
      elementStep_accepts h.1 hus hlength hlaid
    have hlt := elementStep_shortens n hstep
    obtain ⟨ts, f, hsteps, hall, hf⟩ := ih h.2 hvs (Nat.le_trans (Nat.le_of_lt hlt) hlength)
      (skip_elements h.2 hvs htext hblank hd)
    exact ⟨t :: ts, f, .cons hstep hsteps, .cons hmeans hall, hf⟩

/-- **What is written down is read as what was meant**: every source that writes a program down has
that program as its own, wherever its parts may stand. -/
theorem Program.ofSource_writes (p : Program) (source : String) (h : p.isWritable = true)
    (hsource : p.Writes source) :
    ∃ q, Program.ofSource source = .ok q ∧ q.eraseSpans = p.eraseSpans := by
  obtain ⟨ws, blanks, text, hspells, htext, hblanks, hlaid⟩ := hsource
  let start := (Cursor.ofSource source).skipBlank
  have hstart : Laid ws start.skipBlank.rest := by
    rw [Cursor.skipBlank_skipBlank]
    exact skip_elements h hspells htext hblanks hlaid
  obtain ⟨ts, d, hsteps, hall, hend⟩ := elementSteps h hspells (Nat.le_refl _) hstart
  have helements := elements_eq_of_steps hsteps (elementStep_none hend)
  obtain ⟨q, hq, herase⟩ := program_means hall
  refine ⟨q, ?_, herase⟩
  rw [ofSource, Tree.ofSource]
  dsimp only
  rw [helements]
  dsimp only
  rw [hend]
  change (Program.ofTree (.node .program _ (some start.offset) ts)).mapError ReadError.malformed = _
  rw [hq]
  rfl

/-- A word with one blank behind it. -/
theorem laid_space {w : Word} {ws : List Word} {text : List Char} (hw : w.take 2 ≠ ['#', '#'])
    (h : Laid ws text) : Laid (w :: ws) (w ++ ([' '] ++ text)) :=
  ⟨[' '], text, rfl, rfl, fun _ => List.cons_ne_nil _ _, fun hcomment => absurd hcomment hw, h⟩

/-- A comment, and an assignment of a list with a comma behind its last element. -/
theorem Program.ofSource_writes_comma :
    let p : Program := ⟨[.docComment ⟨" flags", none⟩,
      .item (.statement (.assignment ⟨["a", "b"], none⟩ (.operand (.literal
        (.array [.operand (.literal (.boolean true none))] none))) none))], none⟩
    let source := "## flags\na.b = $[ @true , ] ; "
    p.isWritable = true ∧ p.Writes source ∧
      ∃ q, Program.ofSource source = .ok q ∧ q.eraseSpans = p.eraseSpans := by
  intro p source
  have hwritable : p.isWritable = true := by decide
  have hwrites : p.Writes source := by
    refine ⟨[_, _, _, _, _, _, _, _], [], "## flags".toList ++ (['\n'] ++ ("a.b".toList ++ ([' '] ++
      (['='] ++ ([' '] ++ (['$', '['] ++ ([' '] ++ ("@true".toList ++ ([' '] ++ ([','] ++ ([' '] ++
      ([']'] ++ ([' '] ++ ([';'] ++ ([' '] ++ []))))))))))))))), ⟨[_], _, rfl, rfl,
      ⟨_, _, rfl, ⟨_, rfl, _, rfl, [_], .inr ⟨List.cons_ne_nil _ _, rfl⟩, _, _, rfl, rfl, rfl⟩,
        rfl⟩⟩, by decide, rfl, ?_⟩
    refine ⟨['\n'], _, rfl, rfl, fun _ => List.cons_ne_nil _ _, fun _ => rfl, ?_⟩
    exact laid_space (by decide) (laid_space (by decide) (laid_space (by decide)
      (laid_space (by decide) (laid_space (by decide) (laid_space (by decide)
      (laid_space (by decide) rfl))))))
  exact ⟨hwritable, hwrites, Program.ofSource_writes p source hwritable hwrites⟩

end Chainlet
