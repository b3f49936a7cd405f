import Chainlet.Proofs.Spelling.Operands

/-!
# Proofs/Spelling/Chains — chains of operators, and calls

An expression without calls is `Chained`: its head and then its links are read one after the other,
and folded to the left they mean the expression.  This is what an induction along the left spine
carries; where no operator follows, the chain ends and the expression is accepted
(`Chained.accepted`).
-/

namespace Chainlet

open Production Grammar

variable {n : Nat} {inner : Production}

/-- No operator stands where an expression ends. -/
theorem link_none {calls : Bool} {c : Cursor} {rest : List Word} (h : Trails rest c.rest)
    (ho : Opens (endsExpression calls) rest) : link n inner c = none := by
  have hoperator : StartsWith (leaf .operator .operator) isOperatorChar :=
    leaf_startsWith (fun text word rest hread =>
      run_startsWith isOperatorChar isOperatorChar (Lexeme.checked_eq_some.1 hread).1) _
  have hlaid := h.skip (ho.mono fun _ => isVisible_of_endsExpression)
  rw [link, hoperator.fails (hlaid.not_any ho fun c hc => ?_)]
  · rfl
  · simp only [endsExpression, Bool.or_eq_true, Bool.and_eq_true, beq_iff_eq] at hc
    obtain rfl | rfl | ⟨-, rfl | rfl | rfl⟩ := hc
    all_goals rfl

/-! ## Along the spine -/

/-- Expressions that are read from words, a head and its links, before anything at all. -/
def Expression.Chained (e : Expression) (ws : List Word) : Prop :=
  ∀ ⦃n : Nat⦄ ⦃c : Cursor⦄ ⦃rest : List Word⦄, c.rest.length < n + 1 → Laid (ws ++ rest) c.rest →
    Opens isVisible rest → ∃ head links d f, chainHead n (expressionAt n) c = some (head, d) ∧
      Steps (link n (expressionAt n)) d links f ∧ e.MeantBy (foldLinks c head links) ∧
      Trails rest f.rest

variable {ws us vs : List Word} {wss : List (List Word)} {span : Option Span}

theorem operand_chained {v : Operand} (h : v.Accepted ws) (hopens : Opens startsOperand ws) :
    Expression.Chained (.operand v) ws := by
  intro n c rest hlength hlaid ho
  have hcall : Rejects (n + 1) (call n (expressionAt n)) isVisible ws :=
    rejects_of_startsWith call_startsWith hopens fun c hc => by
      rw [beq_eq_false_iff_ne]
      rintro rfl
      exact absurd hc (by decide)
  obtain ⟨t, d, hread, hmeans, hd⟩ := either_accepts_right hcall
    (wrap_accepts (@h n isVisible) fun _ _ _ => operandExpression_means) hlength hlaid ho
  exact ⟨t, [], d, d, hread, .nil, hmeans, hd⟩

/-- One more operator and operand. -/
theorem binary_chained {left : Expression} {operator : String} {right : Operand}
    (hleft : left.Chained us) (hoperator : Form.operator operator.toList = true)
    (hright : right.Accepted vs) (hopens : Opens startsOperand vs) :
    Expression.Chained (.binary left operator right span) (us ++ operator.toList :: vs) := by
  intro n c rest hlength hlaid ho
  rw [List.append_assoc, List.cons_append] at hlaid
  have hword : Opens isVisible [operator.toList] :=
    (opens_operator hoperator []).mono fun _ => isVisible_of_isOperatorChar
  obtain ⟨head, links, d, e, hhead, hlinks, hmeans, he⟩ := hleft hlength hlaid (hword.append _)
  -- every step so far has shortened the rest, so the bound on the operand is not met
  have hlt := (chainHead_reads (expressionAt_reads n)).length_lt rfl hhead
  have hle := hlinks.length_le (link_shortens (expressionAt_reads n))
  have hskip := e.length_skipBlank
  have hread : Accepts n (leaf .operator .operator) isVisible [operator.toList]
      (IsLeaf .operator operator.toList) := leaf_accepts (Lexeme.operator_takes hoperator)
  obtain ⟨o, f, hsign, hleaf, hf⟩ := hread (by omega) (he.skip (hword.append _))
    ((hopens.mono fun _ hc =>
      isVisible_of_startsExpression (startsExpression_of_startsOperand hc)).append rest)
  have hlt' := (leaf_reads Lexeme.operator_forms Lexeme.operator_splits rfl).length_lt rfl hsign
  have hskip' := f.length_skipBlank
  obtain ⟨t, g, hread, hmeans', hg⟩ := hright (n := n) (by omega) (hf.skip ((hopens.mono fun _ hc =>
    isVisible_of_startsExpression (startsExpression_of_startsOperand hc)).append rest)) ho
  have hlink : link n (expressionAt n) e = some ((o, t, g), g) :=
    Option.bind_eq_some_iff.2 ⟨_, hsign, Option.bind_eq_some_iff.2 ⟨_, hread, rfl⟩⟩
  refine ⟨head, links ++ [(o, t, g)], d, g, hhead, hlinks.append (.cons hlink .nil), ?_, hg⟩
  rw [foldLinks, List.foldl_append]
  exact binaryExpression_means hmeans hleaf hmeans'

theorem Expression.Chained.accepted {e : Expression} (h : e.Chained ws) (calls : Bool) :
    e.Accepted calls ws := by
  intro m c rest hlength hlaid ho
  cases m with
  | zero => cases hlength
  | succ n =>
    obtain ⟨head, links, d, f, hhead, hlinks, hmeans, hf⟩ :=
      h hlength hlaid (ho.mono fun _ => isVisible_of_endsExpression)
    exact ⟨foldLinks c head links, f,
      chain_eq (expressionAt_reads n) hlength hhead hlinks (link_none hf ho), hmeans, hf⟩

/-! ## Calls -/

/-- The arguments behind a callee, up to a semicolon or a closing parenthesis. -/
theorem arguments_accepted {es : List Expression} (h : List.Forall₂
      (fun e ws => Expression.Accepted false e ws ∧ Opens startsExpression ws) es wss)
    {c : Cursor} {rest : List Word} (hlength : c.rest.length < n)
    (hlaid : Trails (commaSeparated wss ++ rest) c.rest) (ho : Opens (endsExpression true) rest) :
    ∃ t d, commaList n .arguments (expressionAt n) c = (t, d) ∧
      (∃ text start ts, t = .node .arguments text start ts ∧
        List.Forall₂ Expression.MeantBy es ts) ∧ Trails rest d.rest := by
  refine commaList_accepts rfl (expressions_accepted_at h n) (expressionAt_reads n) rfl hlength
    (Nat.le_of_lt hlength) hlaid (ho.mono fun _ => endsExpression_false) fun d hd => ?_
  have hvisible : Opens isVisible rest := ho.mono fun _ => isVisible_of_endsExpression
  refine ⟨(expressionAt_startsWith n).fails ((hd.skip hvisible).not_any ho fun c hc => ?_),
    commaStep_none hd hvisible ho fun c hc => ?_⟩
  · simp only [endsExpression, Bool.not_true, Bool.false_and, Bool.or_false, Bool.or_eq_true,
      beq_iff_eq] at hc
    obtain rfl | rfl := hc <;> rfl
  · simp only [endsExpression, Bool.not_true, Bool.false_and, Bool.or_false, Bool.or_eq_true,
      beq_iff_eq] at hc
    obtain rfl | rfl := hc <;> rfl

theorem callOf_accepts {rule : Rule} {callee : Production} {w : Word} {good : Tree → Prop}
    {target : Call} {slot : Slot} (hcallee : Accepts n callee isVisible [w] good)
    (hreads : callee.Reads slot) (hsolid : slot.isSolid = true) {es : List Expression}
    (h : List.Forall₂
      (fun e ws => Expression.Accepted false e ws ∧ Opens startsExpression ws) es wss)
    (hmeans : ∀ text start t u, good t → (∃ text start ts, u = .node .arguments text start ts ∧
      List.Forall₂ Expression.MeantBy es ts) → target.MeantBy (.node rule text start [t, u])) :
    Accepts n (callOf n (expressionAt n) rule callee) (endsExpression true)
      (w :: commaSeparated wss) target.MeantBy := by
  intro c rest hlength hlaid ho
  have hvisible : Opens isVisible (commaSeparated wss ++ rest) :=
    opens_commaSeparated
      (h.imp fun _ _ hboth => hboth.2.mono fun _ => isVisible_of_startsExpression)
      (ho.mono fun _ => isVisible_of_endsExpression)
  obtain ⟨t, d, hread, hgood, hd⟩ := hcallee hlength hlaid hvisible
  have hlt := hreads.length_lt hsolid hread
  obtain ⟨u, e, hlist, harguments, he⟩ := arguments_accepted h (n := n) (by omega) hd ho
  refine ⟨branch rule c e [t, u], e, ?_, hmeans _ _ t u hgood harguments, he⟩
  refine Option.bind_eq_some_iff.2 ⟨_, hread, ?_⟩
  dsimp only
  rw [hlist]
  rfl

theorem opens_callee {callee : Callee} (h : callee.isWritable = true) :
    Opens isVisible [callee.word] := by
  cases callee with
  | builtin keyword => exact (opens_keyword h).mono fun c hc => by rw [beq_iff_eq.1 hc]; rfl
  | user p => exact (opens_path h).mono fun _ => isVisible_of_isNameStart

theorem callee_accepts {callee : Callee} {es : List Expression} (hcallee : callee.isWritable = true)
    (h : List.Forall₂
      (fun e ws => Expression.Accepted false e ws ∧ Opens startsExpression ws) es wss) :
    Accepts n (either (callOf n (expressionAt n) .builtinCall keyword)
      (callOf n (expressionAt n) .userCall (path n))) (endsExpression true)
      (callee.word :: commaSeparated wss) (Call.MeantBy ⟨callee, es, span⟩) := by
  cases callee with
  | builtin keyword =>
    exact either_accepts_left (callOf_accepts (keyword_accepts hcallee) keyword_reads rfl h
      fun _ _ _ _ => builtinCall_means)
  | user p =>
    have hopens : Opens isNameStart (p.word :: commaSeparated wss) := (opens_path hcallee).append _
    refine either_accepts_right (rejects_of_startsWith (keyword_startsWith.bind _) hopens ?_)
      (callOf_accepts ((path_accepts hcallee).mono (Nat.le_succ n)) path_reads rfl h
        fun _ _ _ _ => userCall_means)
    intro c hc
    rw [beq_eq_false_iff_ne]
    rintro rfl
    exact absurd hc (by decide)

/-- An ampersand, a callee and its arguments. -/
theorem call_accepted {callee : Callee} {es : List Expression} (hcallee : callee.isWritable = true)
    (h : List.Forall₂
      (fun e ws => Expression.Accepted false e ws ∧ Opens startsExpression ws) es wss) :
    Expression.Accepted true (.call ⟨callee, es, span⟩)
      (['&'] :: callee.word :: commaSeparated wss) := by
  intro m c rest hlength hlaid ho
  cases m with
  | zero => cases hlength
  | succ n =>
    obtain ⟨d, hsign, hd⟩ := sign_laid (Lexeme.exactly_takes ['&']) hlaid
    have hshort := (only_exactly ['&']).length_lt (List.cons_ne_nil _ _) hsign
    have hskip := d.length_skipBlank
    obtain ⟨t, e, hread, hmeans, he⟩ := callee_accepts (n := n) hcallee h (by omega)
      (hd.skip ((opens_callee hcallee).append _)) ho
    have hcall : call n (expressionAt n) c = some (branch .callExpression c e [t], e) :=
      Option.bind_eq_some_iff.2 ⟨d, hsign, Option.bind_eq_some_iff.2 ⟨_, hread, rfl⟩⟩
    have hhead : chainHead n (expressionAt n) c = some (branch .callExpression c e [t], e) := by
      rw [chainHead, either, hcall]
      rfl
    exact ⟨_, e, chain_eq (expressionAt_reads n) hlength hhead .nil (link_none he ho),
      callExpression_means hmeans, he⟩

end Chainlet
