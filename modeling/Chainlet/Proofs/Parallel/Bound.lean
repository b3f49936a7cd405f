import Chainlet.Proofs.Parallel.Grammar

/-!
# Proofs/Parallel/Bound — bounds make no difference

A source is parallel to itself (`parallel_self`), so two readings from one cursor with different bounds
are the same reading, as long as both bounds are as large as the rest: an expression of any nesting is an
`expression` (`expressionAt_eq_expression`), and so for the steps that go on behind one.
-/

namespace Chainlet

open Production

theorem rel_self {α : Type} {S : α → α → Prop} (h : ∀ a, S a a) (x : Option α) : Option.Rel S x x := by
  cases x with
  | none => exact .none
  | some a => exact .some (h a)

theorem eq_of_rel {α : Type} {x x' : Option α} (h : Option.Rel Eq x x') : x = x' := by
  cases h with
  | none => rfl
  | some h => rw [h]

/-- **A source is parallel to itself.** -/
theorem parallel_self : Parallel (fun _ => Eq) Eq where
  skip h := congrArg Cursor.skipBlank h
  word _ h := h ▸ rel_self (fun _ => ⟨rfl, rfl⟩) _
  sign _ h := h ▸ rel_self (fun _ => rfl) _
  opening _ h := h ▸ rel_self (fun _ => rfl) _
  closing _ h := h ▸ rel_self (fun _ => rfl) _
  semicolon h := h ▸ rel_self (fun _ => rfl) _
  branch _ h h' _ _ hts := by
    rw [List.forall₂_eq_eq_eq] at hts
    rw [h, h', hts]
  absent h := by rw [h]
  optional h := by rw [h]

namespace Grammar

/-- A reading alike to another one from the same cursor is that reading. -/
theorem eq_of_alike {n n' : Nat} {p p' : Production} {c : Cursor}
    (h : Alike (fun _ => Eq) Eq n n' p p') (hn : c.rest.length < n) (hn' : c.rest.length < n') :
    p c = p' c :=
  eq_of_rel <| rel_imp (h (d := 0) rfl hn hn') fun _ _ _ _ hread =>
    Prod.ext hread.tree hread.stop

variable {n : Nat} {c : Cursor}

theorem expressionAt_alike_expression (n n' : Nat) :
    Alike (fun _ => Eq) Eq n n' (expressionAt n) expression := by
  rintro d c _ rfl hn -
  exact expressionAt_alike parallel_self n _ rfl hn (Nat.lt_succ_self _)

/-- **Expressions of any nesting are expressions.** -/
theorem expressionAt_eq_expression (h : c.rest.length < n) : expressionAt n c = expression c :=
  eq_of_alike (expressionAt_alike_expression n _) h (Nat.lt_succ_self _)

/-- An operator with its operand behind a cursor, wherever the chain starts. -/
theorem link_eq (h : c.rest.length < n + 1) :
    link n (expressionAt n) c = link c.rest.length expression c := by
  have hrel := link_alike parallel_self (expressionAt_alike_expression n c.rest.length) (d := 0) rfl h
    (Nat.lt_succ_self _)
  refine eq_of_rel (rel_imp hrel ?_)
  rintro ⟨⟨sign, right, stop⟩, e⟩ ⟨⟨sign', right', stop'⟩, e'⟩ - - ⟨⟨rfl, rfl, hstop, hstop'⟩, rfl, -, -⟩
  rw [show stop = e from hstop, show stop' = e from hstop']

/-- A comma with an expression behind a cursor, wherever the list starts. -/
theorem commaStep_eq (h : c.rest.length < n) :
    commaStep (expressionAt n) c = commaStep expression c := by
  have hrel := parallel_self.commaStep (expressionAt_alike_expression n n) (d := 0) rfl h h
  exact eq_of_rel (rel_imp hrel fun _ _ _ _ hread => Prod.ext hread.1 hread.2.1)

end Grammar

end Chainlet
