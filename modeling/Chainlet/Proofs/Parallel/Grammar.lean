import Chainlet.Grammar.Source
import Chainlet.Proofs.Parallel.Basic

/-!
# Proofs/Parallel/Grammar — the grammar reads alike in parallel sources

One lemma for each production, up to expressions of any nesting (`Parallel.expressionAt`) and items
(`Parallel.item`).  The two readings may have different bounds on their repetitions and nesting, as
long as each of them is as large as its own rest: so a larger bound makes no difference.
-/

namespace Chainlet

namespace Grammar

open Production

variable {R : Nat → Cursor → Cursor → Prop} {T : Tree → Tree → Prop} {n n' m m' i i' : Nat}
  {inner inner' : Production}

/-- Corresponding cursors behind the starts of two chains. -/
def Within (R : Nat → Cursor → Cursor → Prop) (d : Nat) (c c' e e' : Cursor) : Prop :=
  R d e e' ∧ c.Reaches e ∧ c'.Reaches e'

/-- Corresponding links of two chains: an operator, its operand, and the cursor behind them. -/
structure LinkAlike (R : Nat → Cursor → Cursor → Prop) (T : Tree → Tree → Prop) (d : Nat)
    (c c' : Cursor) (l l' : Tree × Tree × Cursor) : Prop where
  sign : T l.1 l'.1
  right : T l.2.1 l'.2.1
  stop : Within R d c c' l.2.2 l'.2.2

section Productions

variable (h : Parallel R T)
include h

/-! ## Names -/

theorem name_alike : Alike R T m m' name name := h.leaf .name

theorem keyword_alike : Alike R T m m' keyword keyword := h.leaf .keyword

/-- A point and a name. -/
theorem pointStep_alike {d : Nat} {c c' : Cursor} (hR : R d c c') (hm : c.rest.length < m)
    (hm' : c'.rest.length < m') :
    Option.Rel (fun r r' => T r.1 r'.1 ∧ R d r.2 r'.2 ∧ c.Past r.2 ∧ c'.Past r'.2) (pointStep c)
      (pointStep c') := by
  refine rel_bind (h.signHere .point hR) fun e e' ⟨hRe, hpast, hpast'⟩ => ?_
  have hlt := hpast.2
  have hlt' := hpast'.2
  exact rel_imp (@name_alike _ _ m m' h _ _ _ hRe (by omega) (by omega)) fun _ _ _ _ hread =>
    ⟨hread.tree, hread.stop, hpast.trans hread.past, hpast'.trans hread.past'⟩

theorem path_alike (hn : m ≤ n + 1) (hn' : m' ≤ n' + 1) : Alike R T m m' (path n) (path n') := by
  intro d c c' hR hlength hlength'
  refine rel_bind (name_alike h hR hlength hlength') fun ⟨t, e⟩ ⟨t', e'⟩ hread => ?_
  have hlt := hread.past.2
  have hlt' := hread.past'.2
  dsimp only at hlt hlt'
  obtain ⟨hall, hstop, hreaches, hreaches'⟩ := repeated_alike
    (fun _ _ => pointStep_alike h) hread.stop (Nat.lt_trans hlt hlength) (Nat.lt_trans hlt' hlength') (by omega : e.rest.length ≤ n)
    (by omega : e'.rest.length ≤ n')
  have hwhole := hread.past.reaches hreaches
  have hwhole' := hread.past'.reaches hreaches'
  exact .some ⟨h.branch rfl hR hstop hwhole.1 hwhole'.1 (.cons hread.tree hall), hstop, hwhole, hwhole'⟩

theorem typeAscription_alike : Alike R T m m' typeAscription typeAscription := by
  intro d c c' hR hlength hlength'
  refine rel_bind (h.signHere .colon hR) fun e e' ⟨hRe, hpast, hpast'⟩ => ?_
  have hlt := hpast.2
  have hlt' := hpast'.2
  refine rel_bind ((@name_alike _ _ m m' h).skip h hRe (by omega) (by omega))
    fun ⟨t, f⟩ ⟨t', f'⟩ hread => ?_
  have hwhole := hpast.trans hread.past
  have hwhole' := hpast'.trans hread.past'
  exact .some ⟨h.branch rfl hR hread.stop hwhole.1 hwhole'.1 (.cons hread.tree .nil), hread.stop,
    hwhole, hwhole'⟩

theorem typedName_alike : Alike R T m m' typedName typedName := by
  intro d c c' hR hlength hlength'
  refine rel_bind (name_alike h hR hlength hlength') fun ⟨t, e⟩ ⟨t', e'⟩ hread => ?_
  have hlt := hread.past.2
  have hlt' := hread.past'.2
  have hpart := h.optionalPart (@typeAscription_alike _ _ m m' h) hread.stop
    (Nat.lt_trans hlt hlength) (Nat.lt_trans hlt' hlength')
  have hwhole := hread.past.reaches hpart.reaches
  have hwhole' := hread.past'.reaches hpart.reaches'
  exact .some ⟨h.branch rfl hR hpart.stop hwhole.1 hwhole'.1 (.cons hread.tree (.cons hpart.tree .nil)),
    hpart.stop, hwhole, hwhole'⟩

theorem generics_alike (hn : m ≤ n + 1) (hn' : m' ≤ n' + 1) :
    Alike R T m m' (generics n) (generics n') := by
  intro d c c' hR hlength hlength'
  refine rel_bind (h.signHere .less hR) fun e e' ⟨hRe, hpast, hpast'⟩ => ?_
  have hlt := hpast.2
  have hlt' := hpast'.2
  obtain ⟨hall, hstop, hreaches, hreaches', -⟩ := h.separated (@name_alike _ _ m m' h) hRe
    (by omega) (by omega) (by omega : e.rest.length ≤ n) (by omega : e'.rest.length ≤ n')
  dsimp only
  generalize separated n name e = r at hall hstop hreaches ⊢
  generalize separated n' name e' = r' at hall hstop hreaches' ⊢
  obtain ⟨ts, f⟩ := r
  obtain ⟨ts', f'⟩ := r'
  cases hall with
  | nil => exact .none
  | cons hfirst hmore =>
    refine rel_bind (h.signSkip .greater hstop) fun g g' ⟨hRg, hg, hg'⟩ => ?_
    have hwhole := (hpast.reaches hreaches).trans hg
    have hwhole' := (hpast'.reaches hreaches').trans hg'
    exact .some ⟨h.branch rfl hR hRg hwhole.1 hwhole'.1 (.cons hfirst hmore), hRg, hwhole, hwhole'⟩

/-! ## Literals -/

theorem field_alike (hinner : Alike R T m m' inner inner') :
    Alike R T m m' (field inner) (field inner') := by
  intro d c c' hR hlength hlength'
  refine rel_bind (typedName_alike h hR hlength hlength') fun ⟨t, e⟩ ⟨t', e'⟩ hread => ?_
  refine rel_bind (h.signSkip .equals hread.stop) fun f f' ⟨hRf, hpast, hpast'⟩ => ?_
  have hlt := (hread.past.trans hpast).2
  have hlt' := (hread.past'.trans hpast').2
  refine rel_bind (hinner.skip h hRf (by omega) (by omega)) fun ⟨u, g⟩ ⟨u', g'⟩ hvalue => ?_
  have hwhole := (hread.past.trans hpast).trans hvalue.past
  have hwhole' := (hread.past'.trans hpast').trans hvalue.past'
  exact .some ⟨h.branch rfl hR hvalue.stop hwhole.1 hwhole'.1
    (.cons hread.tree (.cons hvalue.tree .nil)), hvalue.stop, hwhole, hwhole'⟩

theorem literal_alike (hinner : Alike R T i i' inner inner') (hi : m ≤ i + 1) (hi' : m' ≤ i' + 1)
    (hn : m ≤ n + 1) (hn' : m' ≤ n' + 1) :
    Alike R T m m' (literal n inner) (literal n' inner') :=
  firstOf_alike <|
    .cons (h.bracketed .array .square rfl hinner hi hi' hn hn') <|
    .cons (h.bracketed .object .curly rfl (field_alike h hinner) hi hi' hn hn') <|
    .cons (h.bracketed .tuple .round rfl hinner hi hi' hn hn') <|
    .cons (h.leaf .string) <| .cons (h.leaf .float) <| .cons (h.leaf .hex) <|
    .cons (h.leaf .binary) <| .cons (h.leaf .octal) <| .cons (h.leaf .decimal) <|
    .cons (h.leaf .boolean) .nil

/-! ## Items -/

section Items

variable (hinner : Alike R T m m' inner inner') (hn : m ≤ n + 1) (hn' : m' ≤ n' + 1)
include hinner

theorem binding_alike : Alike R T m m' (binding inner) (binding inner') := by
  intro d c c' hR hlength hlength'
  refine rel_bind (h.signHere .equals hR) fun e e' ⟨hRe, hpast, hpast'⟩ => ?_
  have hlt := hpast.2
  have hlt' := hpast'.2
  refine rel_bind (hinner.skip h hRe (by omega) (by omega)) fun ⟨t, f⟩ ⟨t', f'⟩ hread => ?_
  have hwhole := hpast.trans hread.past
  have hwhole' := hpast'.trans hread.past'
  exact .some ⟨h.branch rfl hR hread.stop hwhole.1 hwhole'.1 (.cons hread.tree .nil), hread.stop,
    hwhole, hwhole'⟩

include hn hn'

theorem assignment_alike : Alike R T m m' (assignment n inner) (assignment n' inner') := by
  intro d c c' hR hlength hlength'
  refine rel_bind (path_alike h hn hn' hR hlength hlength') fun ⟨t, e⟩ ⟨t', e'⟩ hread => ?_
  refine rel_bind (h.signSkip .equals hread.stop) fun f f' ⟨hRf, hpast, hpast'⟩ => ?_
  have hlt := (hread.past.trans hpast).2
  have hlt' := (hread.past'.trans hpast').2
  refine rel_bind (hinner.skip h hRf (by omega) (by omega)) fun ⟨u, g⟩ ⟨u', g'⟩ hvalue => ?_
  have hwhole := (hread.past.trans hpast).trans hvalue.past
  have hwhole' := (hread.past'.trans hpast').trans hvalue.past'
  exact .some ⟨h.branch rfl hR hvalue.stop hwhole.1 hwhole'.1
    (.cons hread.tree (.cons hvalue.tree .nil)), hvalue.stop, hwhole, hwhole'⟩

theorem parameter_alike : Alike R T m m' (parameter n inner) (parameter n' inner') :=
  Alike.either
    (h.wrap rfl (literal_alike h hinner (Nat.le_succ m) (Nat.le_succ m') hn hn'))
    (h.wrap rfl (typedName_alike h))

/-- A definition, part by part. -/
theorem definition_alike : Alike R T m m' (definition n inner) (definition n' inner') := by
  intro d c c' hR hlength hlength'
  refine rel_bind (keyword_alike h hR hlength hlength') fun ⟨word, e₁⟩ ⟨word', e₁'⟩ hword => ?_
  have hlt₁ := hword.past.2
  have hlt₁' := hword.past'.2
  refine rel_bind ((@typedName_alike _ _ m m' h).skip h hword.stop (Nat.lt_trans hlt₁ hlength)
    (Nat.lt_trans hlt₁' hlength')) fun ⟨label, e₂⟩ ⟨label', e₂'⟩ hlabel => ?_
  have hpast₂ := hword.past.trans hlabel.past
  have hpast₂' := hword.past'.trans hlabel.past'
  have htypes := h.optionalPart (generics_alike h hn hn') hlabel.stop
    (Nat.lt_trans hpast₂.2 hlength) (Nat.lt_trans hpast₂'.2 hlength')
  have hpast₃ := hpast₂.reaches htypes.reaches
  have hpast₃' := hpast₂'.reaches htypes.reaches'
  have hlt₃ := hpast₃.2
  have hlt₃' := hpast₃'.2
  have hinputs := @Parallel.commaList _ _ n n' m m' _ _ _ _ _ .parameters h rfl
    (parameter_alike h hinner hn hn') htypes.stop (Nat.lt_trans hlt₃ hlength)
    (Nat.lt_trans hlt₃' hlength') (by omega) (by omega)
  have hpast₄ := hpast₃.reaches hinputs.reaches
  have hpast₄' := hpast₃'.reaches hinputs.reaches'
  have hbody := h.optionalPart (binding_alike h hinner) hinputs.stop
    (Nat.lt_trans hpast₄.2 hlength) (Nat.lt_trans hpast₄'.2 hlength')
  have hwhole := hpast₄.reaches hbody.reaches
  have hwhole' := hpast₄'.reaches hbody.reaches'
  exact .some ⟨h.branch rfl hR hbody.stop hwhole.1 hwhole'.1 (.cons hword.tree (.cons hlabel.tree
    (.cons htypes.tree (.cons hinputs.tree (.cons hbody.tree .nil))))), hbody.stop, hwhole, hwhole'⟩

theorem statement_alike : Alike R T m m' (statement n inner) (statement n' inner') :=
  Alike.either (h.wrap rfl (definition_alike h hinner hn hn'))
    (h.wrap rfl (assignment_alike h hinner hn hn'))

/-- **Items read alike.** -/
theorem item_alike : Alike R T m m' (item n inner) (item n' inner') :=
  Alike.either (h.wrap rfl (statement_alike h hinner hn hn')) (h.wrap rfl hinner)

end Items

/-! ## Operands -/

section Expressions

variable (hinner : Alike R T n n' inner inner')
include hinner

theorem group_alike : Alike R T (n + 1) (n' + 1) (group inner) (group inner') := by
  intro d c c' hR hlength hlength'
  refine rel_bind (h.openingHere .group hR) fun e e' ⟨hRe, hpast, hpast'⟩ => ?_
  have hlt := hpast.2
  have hlt' := hpast'.2
  refine rel_bind (hinner.skip h hRe (by omega) (by omega)) fun ⟨t, f⟩ ⟨t', f'⟩ hread => ?_
  refine rel_bind (h.closingSkip .round hread.stop) fun g g' ⟨hRg, hg, hg'⟩ => ?_
  have hwhole := (hpast.trans hread.past).trans hg
  have hwhole' := (hpast'.trans hread.past').trans hg'
  exact .some ⟨h.branch rfl hR hRg hwhole.1 hwhole'.1 (.cons hread.tree .nil), hRg, hwhole, hwhole'⟩

/-- An item and its semicolon, which stands inside a block. -/
theorem itemStep_alike {d : Nat} {c c' : Cursor} (hR : R (d + 1) c c') (hm : c.rest.length < n)
    (hm' : c'.rest.length < n') :
    Option.Rel (fun r r' => T r.1 r'.1 ∧ R (d + 1) r.2 r'.2 ∧ c.Past r.2 ∧ c'.Past r'.2)
      (itemStep n inner c) (itemStep n' inner' c') := by
  refine rel_bind ((item_alike h hinner (Nat.le_succ n) (Nat.le_succ n')).skip h hR hm hm')
    fun ⟨t, e⟩ ⟨t', e'⟩ hread => ?_
  refine rel_bind (rel_imp (h.semicolon (h.skip hread.stop)) fun f f' hf hf' hRf =>
    (⟨hRf, sign_past (only_exactly [';']) (List.cons_ne_nil _ _) hf,
      sign_past (only_exactly [';']) (List.cons_ne_nil _ _) hf'⟩ : R (d + 1) f f' ∧
        e.skipBlank.Past f ∧ e'.skipBlank.Past f')) fun f f' ⟨hRf, hf, hf'⟩ => ?_
  exact .some ⟨hread.tree, hRf, hread.past.trans (e.reaches_skipBlank.past hf),
    hread.past'.trans (e'.reaches_skipBlank.past hf')⟩

theorem block_alike : Alike R T (n + 1) (n' + 1) (block n inner) (block n' inner') := by
  intro d c c' hR hlength hlength'
  refine rel_bind (h.openingHere .block hR) fun e e' ⟨hRe, hpast, hpast'⟩ => ?_
  have hlt := hpast.2
  have hlt' := hpast'.2
  obtain ⟨hall, hstop, hreaches, hreaches'⟩ := repeated_alike
    (fun _ _ => itemStep_alike h hinner) hRe (by omega) (by omega) (by omega : e.rest.length ≤ n) (by omega : e'.rest.length ≤ n')
  refine rel_bind (h.closingSkip .curly hstop) fun g g' ⟨hRg, hg, hg'⟩ => ?_
  have hwhole := (hpast.reaches hreaches).trans hg
  have hwhole' := (hpast'.reaches hreaches').trans hg'
  exact .some ⟨h.branch rfl hR hRg hwhole.1 hwhole'.1 hall, hRg, hwhole, hwhole'⟩

theorem operand_alike : Alike R T (n + 1) (n' + 1) (operand n inner) (operand n' inner') :=
  firstOf_alike <|
    .cons (h.wrap rfl (literal_alike h hinner (Nat.le_refl _) (Nat.le_refl _) (Nat.le_refl _)
      (Nat.le_refl _))) <|
    .cons (group_alike h hinner) <| .cons (h.wrap rfl (block_alike h hinner)) <|
    .cons (h.wrap rfl (path_alike h (Nat.le_refl _) (Nat.le_refl _))) .nil

/-! ## Expressions -/

theorem callOf_alike (rule : Rule) (hrule : rule.form? = none) {callee callee' : Production}
    (hcallee : Alike R T n n' callee callee') :
    Alike R T n n' (callOf n inner rule callee) (callOf n' inner' rule callee') := by
  intro d c c' hR hlength hlength'
  refine rel_bind (hcallee hR hlength hlength') fun ⟨t, e⟩ ⟨t', e'⟩ hread => ?_
  have hlt := Nat.lt_trans hread.past.2 hlength
  have hlt' := Nat.lt_trans hread.past'.2 hlength'
  have hlist := @Parallel.commaList _ _ n n' n n' _ _ _ _ _ .arguments h rfl hinner hread.stop hlt hlt'
    (Nat.le_of_lt hlt) (Nat.le_of_lt hlt')
  have hwhole := hread.past.reaches hlist.reaches
  have hwhole' := hread.past'.reaches hlist.reaches'
  exact .some ⟨h.branch hrule hR hlist.stop hwhole.1 hwhole'.1 (.cons hread.tree (.cons hlist.tree .nil)),
    hlist.stop, hwhole, hwhole'⟩

theorem call_alike : Alike R T (n + 1) (n' + 1) (call n inner) (call n' inner') := by
  intro d c c' hR hlength hlength'
  refine rel_bind (h.signHere .ampersand hR) fun e e' ⟨hRe, hpast, hpast'⟩ => ?_
  have hlt := hpast.2
  have hlt' := hpast'.2
  have hcallee := Alike.either
    (callOf_alike h hinner .builtinCall rfl (@keyword_alike _ _ n n' h))
    (callOf_alike h hinner .userCall rfl (path_alike h (Nat.le_succ n) (Nat.le_succ n')))
  refine rel_bind (hcallee.skip h hRe (by omega) (by omega)) fun ⟨t, f⟩ ⟨t', f'⟩ hread => ?_
  have hwhole := hpast.trans hread.past
  have hwhole' := hpast'.trans hread.past'
  exact .some ⟨h.branch rfl hR hread.stop hwhole.1 hwhole'.1 (.cons hread.tree .nil), hread.stop,
    hwhole, hwhole'⟩

theorem link_alike {d : Nat} {c c' : Cursor} (hR : R d c c') (hlength : c.rest.length < n + 1)
    (hlength' : c'.rest.length < n' + 1) :
    Option.Rel (fun r r' => (T r.1.1 r'.1.1 ∧ T r.1.2.1 r'.1.2.1 ∧ r.1.2.2 = r.2 ∧ r'.1.2.2 = r'.2) ∧
      R d r.2 r'.2 ∧ c.Past r.2 ∧ c'.Past r'.2) (link n inner c) (link n' inner' c') := by
  refine rel_bind ((@Parallel.leaf _ _ (n + 1) (n' + 1) _ h _ .operator).skip h hR hlength hlength')
    fun ⟨t, e⟩ ⟨t', e'⟩ hsign => ?_
  refine rel_bind ((operand_alike h hinner).skip h hsign.stop (Nat.lt_trans hsign.past.2 hlength)
    (Nat.lt_trans hsign.past'.2 hlength')) fun ⟨u, f⟩ ⟨u', f'⟩ hread => ?_
  exact .some ⟨⟨hsign.tree, hread.tree, rfl, rfl⟩, hread.stop, hsign.past.trans hread.past,
    hsign.past'.trans hread.past'⟩

omit hinner in
/-- Chains of corresponding links correspond. -/
theorem foldLinks_alike {d : Nat} {c c' : Cursor} (hR : R d c c') {head head' : Tree}
    (hhead : T head head') {links links' : List (Tree × Tree × Cursor)}
    (hlinks : List.Forall₂ (LinkAlike R T d c c') links links') :
    T (foldLinks c head links) (foldLinks c' head' links') := by
  induction hlinks generalizing head head' with
  | nil => exact hhead
  | cons hfirst _ ih =>
    obtain ⟨hsign, hright, hstop, hreaches, hreaches'⟩ := hfirst
    exact ih (h.branch rfl hR hstop hreaches hreaches' (.cons hhead (.cons hsign (.cons hright .nil))))

theorem chain_alike : Alike R T (n + 1) (n' + 1) (chain n inner) (chain n' inner') := by
  intro d c c' hR hlength hlength'
  have hhead : Alike R T (n + 1) (n' + 1) (chainHead n inner) (chainHead n' inner') :=
    Alike.either (call_alike h hinner) (h.wrap rfl (operand_alike h hinner))
  refine rel_bind (hhead hR hlength hlength') fun ⟨t, e⟩ ⟨t', e'⟩ hread => ?_
  have hlt := hread.past.2
  have hlt' := hread.past'.2
  -- along the links it is kept in mind that all of this stands behind the start of the chain
  have hstep : ∀ ⦃f f' : Cursor⦄, Within R d c c' f f' → f.rest.length < n + 1 →
      f'.rest.length < n' + 1 → Option.Rel (fun r r' => LinkAlike R T d c c' r.1 r'.1 ∧
        Within R d c c' r.2 r'.2 ∧ f.Past r.2 ∧ f'.Past r'.2) (link n inner f)
        (link n' inner' f') := by
    rintro f f' ⟨hRf, hf, hf'⟩ hm hm'
    refine rel_imp (link_alike h hinner hRf hm hm') fun r r' _ _ hrel => ?_
    obtain ⟨⟨hsign, hright, hstop, hstop'⟩, hRr, hpast, hpast'⟩ := hrel
    have hwithin : Within R d c c' r.2 r'.2 := ⟨hRr, hf.trans hpast.1, hf'.trans hpast'.1⟩
    exact ⟨⟨hsign, hright, by rw [hstop, hstop']; exact hwithin⟩, hwithin, hpast, hpast'⟩
  obtain ⟨hall, hwithin, hreaches, hreaches'⟩ := repeated_alike hstep
    ⟨hread.stop, hread.past.1, hread.past'.1⟩ (Nat.lt_trans hlt hlength)
    (Nat.lt_trans hlt' hlength') (Nat.le_of_lt_succ (Nat.lt_trans hlt hlength))
    (Nat.le_of_lt_succ (Nat.lt_trans hlt' hlength'))
  exact .some ⟨foldLinks_alike h hR hread.tree hall, hwithin.1, hread.past.reaches hreaches,
    hread.past'.reaches hreaches'⟩

end Expressions

/-- **Expressions of any nesting read alike.** -/
theorem expressionAt_alike (n n' : Nat) :
    Alike R T n n' (expressionAt n) (expressionAt n') := by
  induction n generalizing n' with
  | zero => exact fun _ _ _ _ hlength _ => absurd hlength (Nat.not_lt_zero _)
  | succ n ih =>
    cases n' with
    | zero => exact fun _ _ _ _ _ hlength' => absurd hlength' (Nat.not_lt_zero _)
    | succ n' => exact chain_alike h (ih n')

end Productions

end Grammar

end Chainlet
