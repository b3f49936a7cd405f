import Chainlet.Proofs.Grammar.Progress

/-!
# Proofs/Grammar/Step — the steps of the repetitions in the grammar

Lists, paths, blocks and chains each repeat one step: a comma and an element, a point and a name, an
item and its semicolon, an operator and its operand.  Every step makes progress, so the repetitions
read all that there is to be read; for chains `chain_eq` says so.
-/

namespace Chainlet

namespace Production

/-- The step of a list between commas. -/
def commaStep (p : Production) (c : Cursor) : Option (Tree × Cursor) := do
  p (← sign comma c.skipBlank).skipBlank

theorem commaStep_shortens {p : Production} {slot : Slot} (hp : p.Reads slot) (hsolid : slot.isSolid = true) :
    Shortens (commaStep p) := by
  intro c t d h
  obtain ⟨e, hsign, hread⟩ := Option.bind_eq_some_iff.1 h
  have hlt := hp.length_lt hsolid hread
  have hcomma := (only_exactly [',']).length_lt (List.cons_ne_nil _ _) hsign
  have hskip := e.length_skipBlank
  have hskip' := c.length_skipBlank
  omega

end Production

namespace Grammar

open Production

/-- The step of a path: a point and a name. -/
def pointStep (c : Cursor) : Option (Tree × Cursor) := do name (← sign (.exactly ['.']) c)

theorem pointStep_shortens : Shortens pointStep := by
  intro c t d h
  obtain ⟨e, hsign, hread⟩ := Option.bind_eq_some_iff.1 h
  have hlt := name_reads.length_lt rfl hread
  have hpoint := (only_exactly ['.']).length_lt (List.cons_ne_nil _ _) hsign
  omega

variable {n : Nat} {inner : Production}

/-- The step of a block: an item and its semicolon. -/
def itemStep (n : Nat) (inner : Production) (c : Cursor) : Option (Tree × Cursor) := do
  let (t, d) ← item n inner c.skipBlank
  let e ← sign semicolon d.skipBlank
  pure (t, e)

theorem itemStep_shortens (hinner : inner.Reads (.category .expression)) : Shortens (itemStep n inner) := by
  intro c t d h
  obtain ⟨⟨t', d'⟩, hitem, h⟩ := Option.bind_eq_some_iff.1 h
  obtain ⟨e, hsign, h⟩ := Option.bind_eq_some_iff.1 h
  cases h
  have hlt := (item_reads hinner).length_lt rfl hitem
  have hsemicolon := (only_exactly [';']).length_lt (List.cons_ne_nil _ _) hsign
  have hskip := c.length_skipBlank
  have hskip' := d'.length_skipBlank
  omega

/-! ## Chains -/

/-- What a chain starts with. -/
def chainHead (n : Nat) (inner : Production) : Production :=
  either (call n inner) (wrap .operandExpression (operand n inner))

/-- A head with the links behind it, all of them from one cursor on. -/
def foldLinks (c : Cursor) (head : Tree) (links : List (Tree × Tree × Cursor)) : Tree :=
  links.foldl (fun left (sign, right, stop) => branch .binaryExpression c stop [left, sign, right])
    head

theorem chainHead_reads (hinner : inner.Reads (.category .expression)) :
    (chainHead n inner).Reads (.category .expression) :=
  either_reads (call_reads hinner) (wrap_reads (operand_reads hinner) rfl rfl).category

theorem link_shortens (hinner : inner.Reads (.category .expression)) :
    Shortens (link n inner) := by
  intro c a d h
  obtain ⟨⟨sign, e⟩, hsign, h⟩ := Option.bind_eq_some_iff.1 h
  obtain ⟨⟨right, f⟩, hright, h⟩ := Option.bind_eq_some_iff.1 h
  cases h
  have hoperator := (leaf_reads Lexeme.operator_forms Lexeme.operator_splits rfl).length_lt rfl hsign
  have hoperand := (operand_reads hinner).length_lt rfl hright
  have hskip := c.length_skipBlank
  have hskip' := e.length_skipBlank
  omega

/-- A head and all the links behind it are the whole chain. -/
theorem chain_eq (hinner : inner.Reads (.category .expression)) {c d e : Cursor} {head : Tree}
    {links : List (Tree × Tree × Cursor)} (hlength : c.rest.length < n + 1)
    (hhead : chainHead n inner c = some (head, d)) (hlinks : Steps (link n inner) d links e)
    (hstop : link n inner e = none) : chain n inner c = some (foldLinks c head links, e) := by
  have hlt := (chainHead_reads hinner).length_lt rfl hhead
  have hrun := repeated_eq_of_steps (n := n) (link_shortens hinner) hlinks hstop (by omega)
  refine Option.bind_eq_some_iff.2 ⟨_, hhead, ?_⟩
  dsimp only
  rw [hrun]
  rfl

end Grammar

end Chainlet
