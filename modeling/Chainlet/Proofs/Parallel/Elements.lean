import Chainlet.Proofs.Grammar.Elements
import Chainlet.Proofs.Parallel.Appended
import Chainlet.Proofs.Parallel.Grammar

/-!
# Proofs/Parallel/Elements — elements stay what they are in a longer source

An item that is ended by a semicolon has its fence there, and a comment ends at the latest where
another line starts.  So the elements of a source are elements of every longer source in which more
lines follow it, and if nothing follows, **the whole run of elements is the same** wherever it starts.
-/

namespace Chainlet

open Production Grammar

variable {more : List Char} {k n n' : Nat} {c c' : Cursor}

/-! ## What may follow a source -/

/-- A text that starts another line, or no text. -/
def StartsLine (more : List Char) : Prop := more = [] ∨ more.head? = some '\n'

theorem StartsLine.eq (h : StartsLine more) : more = [] ∨ ∃ rest, more = '\n' :: rest := by
  refine h.imp_right fun hhead => ?_
  cases more with
  | nil => cases hhead
  | cons c rest => exact ⟨rest, by rw [Option.some.inj hhead]⟩

theorem StartsLine.line (h : StartsLine more) (text : List Char) :
    (text ++ more).takeWhile (· != '\n') = text.takeWhile (· != '\n') ∧
      (text ++ more).dropWhile (· != '\n') = text.dropWhile (· != '\n') ++ more := by
  induction text with
  | nil =>
    obtain rfl | ⟨rest, rfl⟩ := h.eq
    · exact ⟨rfl, rfl⟩
    · exact ⟨rfl, rfl⟩
  | cons c cs ih =>
    rw [List.cons_append, List.takeWhile_cons, List.takeWhile_cons, List.dropWhile_cons,
      List.dropWhile_cons]
    split
    · exact ⟨congrArg (c :: ·) ih.1, ih.2⟩
    · exact ⟨rfl, rfl⟩

/-- **A comment is read in the same way whatever other lines follow.** -/
theorem StartsLine.docComment (h : StartsLine more) (text : List Char) :
    Lexeme.docComment (text ++ more)
      = (Lexeme.docComment text).map fun (word, rest) => (word, rest ++ more) := by
  have hsigns : Lexeme.exactly ['#', '#'] (text ++ more)
      = (Lexeme.exactly ['#', '#'] text).map fun (word, rest) => (word, rest ++ more) := by
    match text with
    | [] => obtain rfl | ⟨rest, rfl⟩ := h.eq <;> rfl
    | [c] => obtain rfl | ⟨rest, rfl⟩ := h.eq <;> by_cases hc : '#' = c <;> simp [Lexeme.exactly, hc]
    | c :: d :: cs =>
      rw [List.cons_append, List.cons_append]
      simp only [Lexeme.exactly]
      by_cases hc : '#' = c
      · by_cases hd : '#' = d
        · rw [if_pos hc, if_pos hc, if_pos hd, if_pos hd]
          rfl
        · rw [if_pos hc, if_pos hc, if_neg hd, if_neg hd]
          rfl
      · rw [if_neg hc, if_neg hc]
        rfl
  rw [Lexeme.docComment, Lexeme.glue, Lexeme.glue, hsigns]
  cases hread : Lexeme.exactly ['#', '#'] text with
  | none => rfl
  | some r =>
    obtain ⟨hline, hrest⟩ := h.line r.2
    simp [Lexeme.many, hline, hrest]

/-! ## Elements -/

/-- Two nodes that were read at corresponding cursors, and what is behind them. -/
def ReadFurther (more : List Char) (k : Nat) (r r' : Tree × Cursor) : Prop :=
  r'.1 = r.1.shift k ∧ Further more k r.2 r'.2

theorem docElement_further_of (h : Further more k c c')
    (hread : Lexeme.docComment (c.rest ++ more)
      = (Lexeme.docComment c.rest).map fun (word, rest) => (word, rest ++ more)) :
    Option.Rel (ReadFurther more k) (wrap .docElement (leaf .docComment .docComment) c)
      (wrap .docElement (leaf .docComment .docComment) c') := by
  have hleaf : Option.Rel (ReadFurther more k) (leaf .docComment .docComment c)
      (leaf .docComment .docComment c') := h.leaf hread
  obtain ⟨hnone, hnone'⟩ | ⟨r, r', hsome, hsome', htree, hfurther⟩ := rel_cases hleaf
  · rw [wrap, wrap, hnone, hnone']
    exact .none
  · have hreaches : ∀ {c : Cursor} {r : Tree × Cursor},
        leaf .docComment .docComment c = some r → c.Reaches r.2 := by
      intro c r hread
      obtain ⟨⟨word, rest⟩, hword, rfl⟩ := Option.map_eq_some_iff.1 hread
      exact Cursor.reaches_after (Lexeme.docComment_splits _ _ _ hword)
    rw [wrap, wrap, hsome, hsome']
    exact .some ⟨h.branch hfurther (hreaches hsome) (hreaches hsome') (.cons htree .nil), hfurther⟩

theorem docElement_further (hmore : StartsLine more) (h : Further more k c c') :
    Option.Rel (ReadFurther more k) (wrap .docElement (leaf .docComment .docComment) c)
      (wrap .docElement (leaf .docComment .docComment) c') :=
  docElement_further_of h (hmore.docComment c.rest)

/-- **An item that is ended by a semicolon has its fence there**, whatever stands behind it. -/
theorem fence_of_itemElement {inner : Production} (hinner : inner.Reads (.category .expression))
    {t : Tree} {e : Cursor} (h : itemElement n inner c = some (t, e)) :
    ∃ v, c.rest = v ++ e.rest ∧ ∀ x, fenced .text 0 (v ++ x) = true := by
  obtain ⟨⟨t, d⟩, hitem, h⟩ := Option.bind_eq_some_iff.1 h
  obtain ⟨e, hsign, h⟩ := Option.bind_eq_some_iff.1 h
  cases h
  obtain ⟨hderives, hslot⟩ := item_reads hinner hitem
  obtain ⟨w, hw, hquiet⟩ := hderives.quiet (Slot.isInner_of_admits rfl hslot)
  obtain ⟨rest, hrest, rfl⟩ := (only_exactly [';']).sign hsign
  have hd : d.rest = d.rest.takeWhile isBlank ++ ([';'] ++ rest) := by
    rw [← hrest]
    exact List.takeWhile_append_dropWhile.symm
  refine ⟨w ++ (d.rest.takeWhile isBlank ++ [';']), ?_, fun x => ?_⟩
  · rw [hw, List.append_assoc, List.append_assoc]
    exact congrArg (w ++ ·) hd
  · rw [List.append_assoc, List.append_assoc, hquiet, blanks_quiet List.all_takeWhile]
    rfl

theorem fenced_of_itemElement {inner : Production} (hinner : inner.Reads (.category .expression))
    {r : Tree × Cursor} (h : itemElement n inner c = some r) : fenced .text 0 c.rest = true := by
  obtain ⟨v, hv, hfence⟩ := fence_of_itemElement hinner h
  rw [hv, hfence]

theorem itemElement_further (h : Appended more k 0 c c') (hn : c.rest.length ≤ n)
    (hn' : c'.rest.length ≤ n') :
    Option.Rel (ReadFurther more k) (itemElement n (expressionAt (n + 1)) c)
      (itemElement n' (expressionAt (n' + 1)) c') := by
  have hpar := appended_parallel more k
  have hitem := item_alike hpar (expressionAt_alike hpar (n + 1) (n' + 1)) (Nat.le_refl _)
    (Nat.le_refl _) h (Nat.lt_succ_of_le hn) (Nat.lt_succ_of_le hn')
  refine rel_bind hitem fun r r' hread => ?_
  have hstop := hpar.skip hread.stop
  refine rel_bind (rel_imp (hstop.sign ((Lexeme.exactly_single_local ';').bounded hstop.bounded))
    fun _ _ hsign hsign' hfurther => And.intro hfurther (And.intro hsign hsign')) fun e e' hrel => ?_
  obtain ⟨hfurther, hsign, hsign'⟩ := hrel
  have hreaches : ∀ {d e : Cursor}, sign semicolon d.skipBlank = some e → d.Reaches e :=
    fun {d _} hsign => d.reaches_skipBlank.trans
      (sign_past (only_exactly [';']) (List.cons_ne_nil _ _) hsign).1
  exact .some ⟨h.branch hfurther (hread.past.1.trans (hreaches hsign))
    (hread.past'.1.trans (hreaches hsign')) (.cons hread.tree .nil), hfurther⟩

/-- An element that is read on its own is read in the longer source; and if nothing follows, one
that is not read on its own is not read there either. -/
theorem elementWith_further (hmore : StartsLine more) (h : Further more k c c')
    (hn : c.rest.length ≤ n) (hn' : c'.rest.length ≤ n')
    (hread : more = [] ∨ elementWith n (expressionAt (n + 1)) c ≠ none) :
    Option.Rel (ReadFurther more k) (elementWith n (expressionAt (n + 1)) c)
      (elementWith n' (expressionAt (n' + 1)) c') := by
  rw [elementWith, either] at hread
  rw [elementWith, either, elementWith, either]
  obtain ⟨hnone, hnone'⟩ | ⟨r, r', hsome, hsome', hrel⟩ := rel_cases (docElement_further hmore h)
  · rw [hnone] at hread
    rw [hnone, hnone']
    refine itemElement_further ⟨h, hread.imp_right fun hitem => ?_⟩ hn hn'
    obtain ⟨r, hr⟩ := Option.ne_none_iff_exists'.1 hitem
    exact fenced_of_itemElement (expressionAt_reads _) hr
  · rw [hsome, hsome']
    exact .some hrel

/-! ## Runs of elements -/

theorem Further.skipBlank (h : Further more k c c') (hrest : more = [] ∨ c.skipBlank.rest ≠ []) :
    Further more k c.skipBlank c'.skipBlank := by
  have hsplit : (c.rest ++ more).takeWhile isBlank = c.rest.takeWhile isBlank ∧
      (c.rest ++ more).dropWhile isBlank = c.rest.dropWhile isBlank ++ more := by
    obtain rfl | hne := hrest
    · rw [List.append_nil, List.append_nil]
      exact ⟨rfl, rfl⟩
    · change c.rest.dropWhile isBlank ≠ [] at hne
      exact Lexeme.takeWhile_append_of_dropWhile hne more
  rw [Cursor.skipBlank, Cursor.skipBlank, h.rest, hsplit.1, hsplit.2]
  exact h.after _ _

theorem elementStep_further (hmore : StartsLine more) (h : Further more k c c')
    (hn : c.rest.length ≤ n) (hn' : c'.rest.length ≤ n')
    (hread : more = [] ∨ elementStep n c ≠ none) :
    Option.Rel (ReadFurther more k) (elementStep n c) (elementStep n' c') := by
  have hskip := c.length_skipBlank
  have hskip' := c'.length_skipBlank
  refine elementWith_further hmore (h.skipBlank ?_) (by omega) (by omega) hread
  refine hread.imp_right fun hsome hnil => ?_
  obtain ⟨⟨t, d⟩, hr⟩ := Option.ne_none_iff_exists'.1 hsome
  have hlt := (elementWith_reads (expressionAt_reads (n + 1))).length_lt rfl hr
  rw [hnil] at hlt
  cases hlt

/-- **The elements of a source are elements of the longer source.** -/
theorem steps_further (hmore : StartsLine more) {ts : List Tree} {d : Cursor}
    (hsteps : Steps (elementStep n) c ts d) (h : Further more k c c') (hn : c.rest.length ≤ n)
    (hn' : c'.rest.length ≤ n') :
    ∃ d', Steps (elementStep n') c' (ts.map (Tree.shift k)) d' ∧ Further more k d d' := by
  induction hsteps generalizing c' with
  | nil => exact ⟨c', .nil, h⟩
  | cons hstep _ ih =>
    obtain ⟨hnone, -⟩ | ⟨r, r', hsome, hsome', htree, hfurther⟩ := rel_cases
      (elementStep_further hmore h hn hn' (.inr (by rw [hstep]; exact Option.some_ne_none _)))
    · rw [hstep] at hnone
      cases hnone
    · rw [hstep] at hsome
      obtain rfl := Option.some.inj hsome
      have hlt := elementStep_shortens n hstep
      have hlt' := elementStep_shortens n' hsome'
      obtain ⟨d', hmoreSteps, hd⟩ := ih hfurther (by omega) (by omega)
      refine ⟨d', ?_, hd⟩
      rw [List.map_cons, ← htree]
      exact .cons hsome' hmoreSteps

theorem further_refl (c : Cursor) : Further [] 0 c c := ⟨c.rest.append_nil.symm, rfl⟩

theorem Further.eq (h : Further [] 0 c c') : c' = c := by
  obtain ⟨rest, offset⟩ := c
  obtain ⟨rest', offset'⟩ := c'
  rw [Cursor.mk.injEq]
  exact ⟨h.rest.trans (List.append_nil _), h.offset⟩

/-- **The bound on nesting is out of reach as well.** -/
theorem elements_eq (hn : c.rest.length ≤ n) {ts : List Tree} {d : Cursor}
    (h : Steps (elementStep n) c ts d) (hstop : elementStep n d = none) :
    elements c = (ts, d.skipBlank) := by
  have hd := (h.reaches fun _ _ _ => elementStep_reaches n).length_le
  obtain ⟨d', hsteps, hfurther⟩ :=
    steps_further (.inl rfl) h (further_refl c) hn (Nat.le_refl c.rest.length)
  rw [List.map_congr_left fun t _ => t.shift_zero, List.map_id', hfurther.eq] at hsteps
  refine elements_eq_of_steps hsteps ?_
  have hnone := elementStep_further (.inl rfl) (further_refl d) (hd.trans hn) hd (.inl rfl)
  rw [hstop] at hnone
  obtain ⟨-, hnone'⟩ | ⟨r, r', hsome, -⟩ := rel_cases hnone
  · exact hnone'
  · cases hsome

/-- The elements of a source are a run with any larger bound too. -/
theorem steps_of_elements_le {ts : List Tree} {e : Cursor} (h : elements c = (ts, e))
    (hn : c.rest.length ≤ n) :
    ∃ d, Steps (elementStep n) c ts d ∧ elementStep n d = none ∧ d.skipBlank = e := by
  obtain ⟨d, hsteps, hstop, hd⟩ := steps_of_elements h
  have hlength := (hsteps.reaches fun _ _ _ => elementStep_reaches _).length_le
  obtain ⟨d', hsteps', hfurther⟩ := steps_further (.inl rfl) hsteps (further_refl c) (Nat.le_refl _) hn
  rw [List.map_congr_left fun t _ => t.shift_zero, List.map_id', hfurther.eq] at hsteps'
  refine ⟨d, hsteps', ?_, hd⟩
  have hnone := elementStep_further (.inl rfl) (further_refl d) hlength (hlength.trans hn) (.inl rfl)
  rw [hstop] at hnone
  obtain ⟨-, hnone'⟩ | ⟨r, r', hsome, -⟩ := rel_cases hnone
  · exact hnone'
  · cases hsome

end Chainlet
