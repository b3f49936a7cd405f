import Chainlet.Proofs.Grammar.Progress

/-!
# Proofs/Grammar/Elements — a source as a run of elements

The elements of a source are what one step, `elementStep`, reads again and again.  The bound on the
number of steps is out of reach, so a source has exactly the elements of a run that ends where the
step fails (`elements_eq_of_steps`, `steps_of_elements`).
-/

namespace Chainlet

/-- Blanks may be passed over in two goes. -/
theorem Cursor.skipBlank_after {c : Cursor} {blanks rest : List Char} (h : c.rest = blanks ++ rest)
    (hblanks : blanks.all isBlank = true) : (c.after blanks rest).skipBlank = c.skipBlank := by
  have hall := List.all_eq_true.1 hblanks
  simp only [skipBlank, after, h, List.takeWhile_append_of_pos hall,
    List.dropWhile_append_of_pos hall, byteLength_append, Nat.add_assoc]

theorem Cursor.skipBlank_skipBlank (c : Cursor) : c.skipBlank.skipBlank = c.skipBlank :=
  skipBlank_after List.takeWhile_append_dropWhile.symm List.all_takeWhile

namespace Grammar

open Production

/-- The step of a source: an element behind blanks. -/
def elementStep (n : Nat) (c : Cursor) : Option (Tree × Cursor) :=
  elementWith n (expressionAt (n + 1)) c.skipBlank

theorem elementStep_congr {n : Nat} {c c' : Cursor} (h : c.skipBlank = c'.skipBlank) :
    elementStep n c = elementStep n c' := by
  rw [elementStep, elementStep, h]

theorem elementStep_shortens (n : Nat) : Shortens (elementStep n) := by
  intro c t d h
  have hlt := (elementWith_reads (expressionAt_reads (n + 1))).length_lt rfl h
  have hskip := c.length_skipBlank
  omega

theorem elementStep_reaches (n : Nat) {c d : Cursor} {t : Tree}
    (h : elementStep n c = some (t, d)) : c.Reaches d :=
  c.reaches_skipBlank.trans (elementWith_reads (expressionAt_reads (n + 1)) h).1.reaches

variable {n : Nat} {c d e : Cursor} {ts : List Tree}

/-- No element starts at the end of a source. -/
theorem elementStep_none (h : c.skipBlank.rest = []) : elementStep n c = none := by
  refine Option.eq_none_iff_forall_ne_some.2 fun r hread => ?_
  have hlt := (elementWith_reads (expressionAt_reads (n + 1))).length_lt rfl hread
  rw [h] at hlt
  cases hlt

/-- **A run that ends where no element starts reads all elements.** -/
theorem elements_eq_of_steps (h : Steps (elementStep c.rest.length) c ts d)
    (hstop : elementStep c.rest.length d = none) : elements c = (ts, d.skipBlank) := by
  have hrun := repeated_eq_of_steps (elementStep_shortens _) h hstop (Nat.le_refl _)
  change ((repeated (elementStep c.rest.length) c.rest.length c).1,
    (repeated (elementStep c.rest.length) c.rest.length c).2.skipBlank) = _
  rw [hrun]

theorem steps_of_elements (h : elements c = (ts, e)) :
    ∃ d, Steps (elementStep c.rest.length) c ts d ∧ elementStep c.rest.length d = none ∧
      d.skipBlank = e := by
  generalize hrun : repeated (elementStep c.rest.length) c.rest.length c = run
  obtain ⟨us, d⟩ := run
  have helements : elements c = (us, d.skipBlank) := by
    change ((repeated (elementStep c.rest.length) c.rest.length c).1,
      (repeated (elementStep c.rest.length) c.rest.length c).2.skipBlank) = _
    rw [hrun]
  rw [helements, Prod.mk.injEq] at h
  obtain ⟨rfl, rfl⟩ := h
  obtain ⟨hsteps, hstop⟩ := steps_of_repeated (elementStep_shortens _) hrun (Nat.le_refl _)
  exact ⟨d, hsteps, hstop, rfl⟩

/-- A run may start in front of more blanks or of fewer. -/
theorem steps_from_skipBlank {c' : Cursor} (hskip : c.skipBlank = c'.skipBlank)
    (h : Steps (elementStep n) c ts d) :
    ∃ d', Steps (elementStep n) c' ts d' ∧ d.skipBlank = d'.skipBlank := by
  cases h with
  | nil => exact ⟨c', .nil, hskip⟩
  | cons hstep hmore => exact ⟨d, .cons (elementStep_congr hskip ▸ hstep) hmore, rfl⟩

end Grammar

/-- A source whose elements go up to its end can be read. -/
theorem Tree.ofSource_of_elements {source : String} {ts : List Tree} {stop : Cursor}
    (h : Grammar.elements (Cursor.ofSource source).skipBlank = (ts, stop)) (hstop : stop.rest = []) :
    ∃ text start, ofSource source = .ok (.node .program text start ts) := by
  rw [ofSource]
  dsimp only
  rw [h]
  dsimp only
  rw [hstop]
  exact ⟨_, _, rfl⟩

/-- Where the elements of a source end in front of its end, the source cannot be read. -/
theorem Tree.ofSource_of_stop {source : String} {ts : List Tree} {stop : Cursor}
    (h : Grammar.elements (Cursor.ofSource source).skipBlank = (ts, stop)) (hstop : stop.rest ≠ []) :
    ofSource source = .error (.atCursor stop) := by
  rw [ofSource]
  dsimp only
  rw [h]
  exact if_neg fun hempty => hstop (List.isEmpty_iff.1 hempty)

end Chainlet
