import Chainlet.Proofs.Parallel.Elements
import Chainlet.Proofs.Program.Corresponds
import Chainlet.Proofs.Respaced.Word

/-!
# Proofs/Respaced/Item — items are read alike with other blanks in them

Two sources differ in a run of blanks.  Two cursors of theirs are `InStep` in front of the blanks, if
the texts up to them are the same and leave no string open, and behind the blanks, if the rests are the
same.  Every word and every sign leaves them in step, so the grammar reads the two sources in parallel
(`respaced_parallel`), and **an item is read in one of them if it is read in the other**, as nodes of
the same words (`itemElement_respaced`).
-/

namespace Chainlet

open Production Grammar

variable {z z' : List Char} {c c' : Cursor}

/-! ## Cursors in step -/

/-- Two cursors in front of the blanks with no string open up to them, or two cursors behind them. -/
inductive InStep (z z' : List Char) (c c' : Cursor) : Prop where
  | before {u : List Char} (hrest : c.rest = u ++ z) (hrest' : c'.rest = u ++ z')
      (hsettled : Settled u)
  | behind (hrest : c'.rest = c.rest)

/-- Behind further blanks, two cursors are behind the blanks as well, or still in front of them. -/
theorem skipBlank_respaced {u : List Char} (hz : SameBehind z z') (hrest : c.rest = u ++ z)
    (hrest' : c'.rest = u ++ z') :
    c'.skipBlank.rest = c.skipBlank.rest ∨ c.skipBlank.rest = u.dropWhile isBlank ++ z ∧
      c'.skipBlank.rest = u.dropWhile isBlank ++ z' := by
  change c'.rest.dropWhile isBlank = c.rest.dropWhile isBlank ∨
    c.rest.dropWhile isBlank = _ ∧ c'.rest.dropWhile isBlank = _
  rw [hrest, hrest']
  by_cases hnil : u.dropWhile isBlank = []
  · have hall := List.dropWhile_eq_nil_iff.1 hnil
    exact .inl (by
      rw [List.dropWhile_append_of_pos hall, List.dropWhile_append_of_pos hall, hz.behind])
  · exact .inr ⟨(Lexeme.takeWhile_append_of_dropWhile hnil z).2,
      (Lexeme.takeWhile_append_of_dropWhile hnil z').2⟩

theorem InStep.skipBlank (hz : SameBehind z z') (h : InStep z z' c c') :
    InStep z z' c.skipBlank c'.skipBlank := by
  cases h with
  | @before u hrest hrest' hsettled =>
    obtain hsame | ⟨hdrop, hdrop'⟩ := skipBlank_respaced hz hrest hrest'
    · exact .behind hsame
    · refine .before hdrop hdrop' ?_
      have hblanks : Settled (u.takeWhile isBlank) :=
        settled_of_plain (all_isPlain_of (by decide) List.all_takeWhile)
      rw [← List.takeWhile_append_dropWhile (p := isBlank) (l := u)] at hsettled
      exact hblanks.append_iff.1 hsettled
  | behind hrest => exact .behind (congrArg (List.dropWhile isBlank) hrest)

/-- The words that are read at two cursors are the same and leave the cursors in step. -/
theorem InStep.read {l : Lexeme} (h : InStep z z' c c')
    (heven : ∀ u, Settled u → Option.Rel (SameWord z z') (l (u ++ z)) (l (u ++ z')))
    (hsettles : ∀ ⦃text word rest⦄, l text = some (word, rest) → text = word ++ rest ∧ Settled word) :
    Option.Rel (fun r r' => r'.1 = r.1 ∧ InStep z z' (c.after r.1 r.2) (c'.after r'.1 r'.2))
      (l c.rest) (l c'.rest) := by
  cases h with
  | @before u hrest hrest' hsettled =>
    rw [hrest, hrest']
    refine rel_imp (heven u hsettled) fun r r' hread _ ⟨hword, v, hv, hv'⟩ => ⟨hword, ?_⟩
    obtain ⟨hsplit, hquiet⟩ := hsettles (show l (u ++ z) = some (r.1, r.2) from hread)
    rw [hv, ← List.append_assoc, List.append_cancel_right_eq] at hsplit
    rw [hsplit, hquiet.append_iff] at hsettled
    exact .before hv hv' hsettled
  | behind hrest =>
    rw [hrest]
    cases l c.rest with
    | none => exact .none
    | some r => exact .some ⟨rfl, .behind rfl⟩

theorem InStep.sign {l : Lexeme} (h : InStep z z' c c')
    (heven : ∀ u, Settled u → Option.Rel (SameWord z z') (l (u ++ z)) (l (u ++ z')))
    (hsettles : ∀ ⦃text word rest⦄, l text = some (word, rest) → text = word ++ rest ∧ Settled word) :
    Option.Rel (InStep z z') (sign l c) (sign l c') := by
  rw [Production.sign, Production.sign]
  obtain ⟨hnone, hnone'⟩ | ⟨r, r', hsome, hsome', -, hstep⟩ := rel_cases (h.read heven hsettles)
  · rw [hnone, hnone']
    exact .none
  · rw [hsome, hsome']
    exact .some hstep

/-- A fixed sign of visible characters with no quote among them. -/
theorem InStep.exactly {w : List Char} (hz : SameBehind z z') (hw : w.all isVisible = true)
    (hquote : w.all (· != '"') = true) (h : InStep z z' c c') :
    Option.Rel (InStep z z') (Production.sign (Lexeme.exactly w) c)
      (Production.sign (Lexeme.exactly w) c') := by
  refine h.sign (fun u _ => Lexeme.exactly_even hw hz u) fun text word rest hread => ?_
  obtain ⟨rfl, htext⟩ := Lexeme.exactly_eq_some.1 hread
  exact ⟨htext, settled_of_not_quote hquote⟩

/-- **The grammar reads the two sources in parallel.** -/
theorem respaced_parallel (hz : SameBehind z z') :
    Parallel (fun _ => InStep z z') (Tree.Corresponds noSpan noSpan) where
  skip h := h.skipBlank hz
  word {rule l d c c'} hl h := by
    obtain ⟨hsplits, form, hform, hforms⟩ := hl.forms
    have hdoc : rule ≠ .docComment := by rintro rfl; cases hl
    have heven : ∀ u, Settled u → Option.Rel (SameWord z z') (l (u ++ z)) (l (u ++ z')) := by
      intro u hu
      by_cases hrule : rule = .stringLiteral
      · subst hrule
        cases hl
        exact string_even hz hu
      · exact hl.even hrule hz u
    have hread := h.read heven fun text word rest hread =>
      ⟨hsplits _ _ _ hread, rule.word_settled hform hdoc (hforms hread)⟩
    rw [leaf, leaf]
    obtain ⟨hnone, hnone'⟩ | ⟨r, r', hsome, hsome', hword, hstep⟩ := rel_cases hread
    · rw [hnone, hnone']
      exact .none
    · rw [hsome, hsome']
      exact .some ⟨.node (fun _ => congrArg String.ofList hword) rfl .nil, hstep⟩
  sign {l d c c'} hl h := by
    refine h.sign (fun u _ => hl.even hz u) fun text word rest hread => ?_
    obtain ⟨w, honly, hplain⟩ : ∃ w, Only l w ∧ w.all isPlain = true := by
      cases hl
      case equals => exact ⟨['='], only_equals, by decide⟩
      all_goals exact ⟨_, only_exactly _, by decide⟩
    obtain ⟨rfl, htext⟩ := honly hread
    exact ⟨htext, settled_of_plain hplain⟩
  opening hw h := by cases hw <;> exact h.exactly hz (by decide) (by decide)
  closing hw h := by cases hw <;> exact h.exactly hz (by decide) (by decide)
  semicolon h := h.exactly hz (by decide) (by decide)
  branch hform _ _ _ _ hall := .node (fun hsome => by rw [hform] at hsome; cases hsome) rfl hall
  absent _ := .node (fun _ => rfl) rfl .nil
  optional h := .node (fun hsome => nomatch hsome) rfl (.cons h .nil)

/-! ## Items -/

/-- Two elements of the same words, and cursors in step behind them. -/
def ReadInStep (z z' : List Char) (r r' : Tree × Cursor) : Prop :=
  r.1.Corresponds noSpan noSpan r'.1 ∧ InStep z z' r.2 r'.2

/-- **An item is read alike with other blanks in it or in front of it.** -/
theorem itemElement_respaced {n n' : Nat} (hz : SameBehind z z') (h : InStep z z' c c')
    (hn : c.rest.length ≤ n) (hn' : c'.rest.length ≤ n') :
    Option.Rel (ReadInStep z z') (itemElement n (expressionAt (n + 1)) c)
      (itemElement n' (expressionAt (n' + 1)) c') := by
  have hpar := respaced_parallel hz
  have hitem : Alike (fun _ => InStep z z') (Tree.Corresponds noSpan noSpan) (n + 1) (n' + 1)
      (item n (expressionAt (n + 1))) (item n' (expressionAt (n' + 1))) :=
    item_alike hpar (expressionAt_alike hpar (n + 1) (n' + 1)) (Nat.le_refl _) (Nat.le_refl _)
  refine rel_bind (@hitem 0 c c' h (Nat.lt_succ_of_le hn) (Nat.lt_succ_of_le hn')) fun r r' hread => ?_
  refine rel_bind ((hread.stop.skipBlank hz).exactly hz (by decide) (by decide)) fun e e' hstop => ?_
  exact .some ⟨.node (fun hsome => nomatch hsome) rfl (.cons hread.tree .nil), hstop⟩

end Chainlet
