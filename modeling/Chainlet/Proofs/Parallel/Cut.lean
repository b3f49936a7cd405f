import Chainlet.Proofs.Grammar.Lossless
import Chainlet.Proofs.Respaced.Elements

/-!
# Proofs/Parallel/Cut — sources that are cut between their elements

An element is known from its own text: **whatever stands behind an element that was read may be cut
off**, anywhere behind it, and the element is read as before (`elementWith_cut`).  So every element of
a source is a source of that one element, and where reading stops, what stands in front of the place
can be read with the elements found so far, and what stands behind it fails at once and for the same
reason (`Tree.ofSource_localised`).
-/

namespace Chainlet

open Production Grammar

variable {more v w : List Char} {k n n' : Nat} {c c' d d' e' : Cursor} {t : Tree} {ts ts' : List Tree}

/-! ## Elements -/

/-- A comment is read in the same way if all of it or more is left, and then a line break. -/
theorem docComment_cut (h : StartsLine (v ++ more)) (w : List Char) :
    Lexeme.docComment (w ++ v ++ more)
      = (Lexeme.docComment (w ++ v)).map fun (word, rest) => (word, rest ++ more) := by
  have hv : StartsLine v := by
    cases v with
    | nil => exact .inl rfl
    | cons x v => exact .inr (h.resolve_left (List.cons_ne_nil _ _))
  rw [List.append_assoc, h.docComment, hv.docComment, Option.map_map]
  cases Lexeme.docComment w with
  | none => rfl
  | some r => exact congrArg (fun rest => some (r.1, rest)) (List.append_assoc ..).symm

/-- No comment is read from a text if none is read from a longer one. -/
theorem docElement_none_cut (h : c'.rest = c.rest ++ more) (hnone : docElement c' = none) :
    docElement c = none := by
  rw [docElement_eq_none, h] at hnone
  refine docElement_eq_none.2 (Option.eq_none_iff_forall_ne_some.2 fun r hr => ?_)
  have hlonger : Lexeme.exactly ['#', '#'] (c.rest ++ more) = some (r.1, r.2 ++ more) := by
    obtain ⟨hword, htext⟩ := Lexeme.exactly_eq_some.1 (show _ = some (r.1, r.2) from hr)
    rw [htext, List.append_assoc]
    exact Lexeme.exactly_eq_some.2 ⟨hword, rfl⟩
  rw [hlonger] at hnone
  cases hnone

/-- **An element is read in the same way with less behind it.** -/
theorem elementWith_cut (h : Further more k c c') (hn : c.rest.length ≤ n) (hn' : c'.rest.length ≤ n')
    (hread : elementWith n' (expressionAt (n' + 1)) c' = some (t, e')) (he : e'.rest = v ++ more) :
    ∃ u e, elementWith n (expressionAt (n + 1)) c = some (u, e) ∧ t = u.shift k ∧
      Further more k e e' := by
  have hcut : ∀ {w}, c'.rest = w ++ e'.rest → c.rest = w ++ v := by
    intro w hw
    rw [h.rest, he, ← List.append_assoc, List.append_cancel_right_eq] at hw
    exact hw
  obtain ⟨r, hread', hrel⟩ : ∃ r, elementWith n (expressionAt (n + 1)) c = some r ∧
      ReadFurther more k r (t, e') := by
    obtain hdoc | ⟨hnone, hitem⟩ := elementWith_eq_some.1 hread
    · obtain ⟨w, rest, hw, rfl, hline, -⟩ := docElement_eq_some hdoc
      obtain rfl : rest = v ++ more := he
      have hcomment := docElement_further_of h (by rw [hcut hw]; exact docComment_cut hline w)
      obtain ⟨-, hnone⟩ | ⟨r, r', hsome, hsome', hrel⟩ := rel_cases hcomment
      · rw [docElement, hnone] at hdoc
        cases hdoc
      · obtain rfl := Option.some.inj (hsome'.symm.trans hdoc)
        exact ⟨r, elementWith_eq_some.2 (.inl hsome), hrel⟩
    · obtain ⟨w, hw, hfence⟩ := fence_of_itemElement (expressionAt_reads _) hitem
      have hbounded : Bounded more 0 c.rest := .inr (by rw [hcut hw]; exact hfence v)
      obtain ⟨-, hnone'⟩ | ⟨r, r', hsome, hsome', hrel⟩ :=
        rel_cases (itemElement_further ⟨h, hbounded⟩ hn hn')
      · rw [hnone'] at hitem
        cases hitem
      · obtain rfl := Option.some.inj (hsome'.symm.trans hitem)
        exact ⟨r, elementWith_eq_some.2 (.inr ⟨docElement_none_cut h.rest hnone, hsome⟩), hrel⟩
  exact ⟨r.1, r.2, hread', hrel⟩

theorem elementStep_cut (h : Further more k c c') (hn : c.rest.length ≤ n)
    (hn' : c'.rest.length ≤ n') (hread : elementStep n' c' = some (t, e'))
    (he : e'.rest = v ++ more) :
    ∃ u e, elementStep n c = some (u, e) ∧ t = u.shift k ∧ Further more k e e' := by
  have hskip := c.length_skipBlank
  have hskip' := c'.length_skipBlank
  refine elementWith_cut (h.skipBlank (.inr fun hnil => ?_)) (by omega) (by omega) hread he
  -- the element would start behind the cut
  have hlt := (elementWith_reads (expressionAt_reads (n' + 1))).length_lt rfl hread
  have hall := List.dropWhile_eq_nil_iff.1 hnil
  have hrest : c'.skipBlank.rest = more.dropWhile isBlank := by
    change c'.rest.dropWhile isBlank = _
    rw [h.rest, List.dropWhile_append_of_pos hall]
  have hle : (more.dropWhile isBlank).length ≤ more.length := (List.dropWhile_sublist _).length_le
  rw [hrest, he, List.length_append] at hlt
  omega

/-- **The elements in front of a cut are read as before.** -/
theorem steps_cut (hsteps : Steps (elementStep n') c' ts d') (h : Further more k c c')
    (hd : d'.rest = v ++ more) (hn : c.rest.length ≤ n) (hn' : c'.rest.length ≤ n') :
    ∃ us d, Steps (elementStep n) c us d ∧ ts = us.map (Tree.shift k) ∧ Further more k d d' := by
  induction hsteps generalizing c with
  | nil => exact ⟨[], c, .nil, rfl, h⟩
  | cons hstep hmore ih =>
    obtain ⟨w, hw, -⟩ := hmore.reaches fun _ _ _ => elementStep_reaches n'
    rw [hd, ← List.append_assoc] at hw
    obtain ⟨u, e, hstep', rfl, he⟩ := elementStep_cut h hn hn' hstep hw
    have hlt := elementStep_shortens n' hstep
    have hlt' := elementStep_shortens n hstep'
    obtain ⟨us, d, hsteps', rfl, hd'⟩ := ih he hd (by omega) (by omega)
    exact ⟨u :: us, d, .cons hstep' hsteps', rfl, hd'⟩

/-! ## Sources -/

/-- What a step has read was read on the way. -/
theorem Production.Steps.exists_step {α : Type} {step : Cursor → Option (α × Cursor)} {as : List α}
    {a : α} (h : Steps step c as d) (ha : a ∈ as) :
    ∃ before c' d', Steps step c before c' ∧ step c' = some (a, d') := by
  induction h with
  | nil => cases ha
  | @cons c e d b bs hstep _ ih =>
    obtain rfl | ha := List.mem_cons.1 ha
    · exact ⟨[], c, e, .nil, hstep⟩
    · obtain ⟨before, c', d', hsteps, hread⟩ := ih ha
      exact ⟨b :: before, c', d', .cons hstep hsteps, hread⟩

theorem Cursor.skipBlank_of_head (h : c.rest.head?.any isBlank = false) : c.skipBlank = c := by
  obtain ⟨rest, offset⟩ := c
  cases rest with
  | nil => rfl
  | cons x xs =>
    have hx : isBlank x = false := h
    simp [skipBlank, after, hx]

theorem ofSource_ofList (text : List Char) : Cursor.ofSource (String.ofList text) = ⟨text, 0⟩ := by
  rw [Cursor.ofSource, String.toList_ofList]

namespace Tree

/-- The elements of a source up to its end, or up to the first place where none can be read. -/
def accepted (source : String) : List Tree := (elements (Cursor.ofSource source).skipBlank).1

/-- **The text of an element is a source of that element.** -/
theorem ofSource_element (hread : elementStep n c = some (t, d)) (hn : c.rest.length ≤ n) :
    ∃ root u, ofSource t.text = .ok root ∧ root.children = [u] ∧ u.shift t.span.start = t := by
  have hderives := (elementWith_reads (expressionAt_reads (n + 1)) hread).1
  obtain ⟨w, hw, -, htext⟩ := hderives.reaches.exists_word
  have halone : Further d.rest c.skipBlank.offset ⟨w, 0⟩ c.skipBlank := ⟨hw, (Nat.zero_add _).symm⟩
  have hlength : c.skipBlank.rest.length ≤ n := c.length_skipBlank.trans hn
  have hlength' : w.length ≤ n := by
    rw [hw, List.length_append] at hlength
    omega
  obtain ⟨u, e, hread', hshift, he⟩ := elementWith_cut (v := []) halone hlength' hlength hread rfl
  -- the text starts with the first character of the element
  have hskip : (Cursor.mk w 0).skipBlank = ⟨w, 0⟩ := by
    refine Cursor.skipBlank_of_head ?_
    have hhead : c.skipBlank.rest.head?.any isBlank = false := head?_dropWhile_isBlank c.rest
    cases w with
    | nil => rfl
    | cons x w => rwa [hw] at hhead
  have hend : e.skipBlank.rest = [] := by
    have hrest : e.rest = [] := List.append_cancel_right he.rest.symm
    change e.rest.dropWhile isBlank = []
    rw [hrest]
    rfl
  have hstep : elementStep n ⟨w, 0⟩ = some (u, e) := by rwa [elementStep, hskip]
  have helements := elements_eq hlength' (.cons hstep .nil) (elementStep_none hend)
  obtain ⟨text, start, hroot⟩ := @ofSource_of_elements (String.ofList w) _ _
    (by rw [ofSource_ofList, hskip]; exact helements) hend
  rw [hderives.text_eq, htext, hderives.span_eq]
  exact ⟨_, u, hroot, rfl, hshift.symm⟩

/-- **A source in front of a cut can be read with the elements in front of it.** -/
theorem ofSource_front (hsteps : Steps (elementStep n) ⟨w ++ more, 0⟩ ts d)
    (hd : d.skipBlank.rest = more) (hn : (w ++ more).length ≤ n) :
    ∃ root, ofSource (String.ofList w) = .ok root ∧ root.children = ts := by
  have hrest : d.rest = d.rest.takeWhile isBlank ++ more := by
    rw [← hd]
    exact List.takeWhile_append_dropWhile.symm
  have hlength : w.length ≤ n := by
    rw [List.length_append] at hn
    omega
  obtain ⟨us, e, hsteps', rfl, he⟩ := steps_cut hsteps
    (show Further more 0 ⟨w, 0⟩ ⟨w ++ more, 0⟩ from ⟨rfl, rfl⟩) hrest hlength hn
  obtain ⟨e', hsteps'', hskip⟩ := steps_from_skipBlank (Cursor.skipBlank_skipBlank _).symm hsteps'
  have hend : e'.skipBlank.rest = [] := by
    have hblank : e.rest = d.rest.takeWhile isBlank := List.append_cancel_right (he.rest.symm.trans hrest)
    rw [← hskip]
    exact List.dropWhile_eq_nil_iff.2 (hblank ▸ List.all_eq_true.1 List.all_takeWhile)
  have helements := elements_eq (Nat.le_trans (Cursor.length_skipBlank _) hlength) hsteps''
    (elementStep_none hend)
  obtain ⟨text, start, hroot⟩ := @ofSource_of_elements (String.ofList w) _ _
    (by rw [ofSource_ofList]; exact helements) hend
  refine ⟨_, hroot, ?_⟩
  rw [List.map_congr_left fun t _ => t.shift_zero, List.map_id']
  rfl

/-- **Where no element can be read, none can be read from what stands there alone.** -/
theorem ofSource_behind (hnone : elementStep n d = none) (hd : d.skipBlank = c) (hne : c.rest ≠ [])
    (hn : c.rest.length ≤ n) : ofSource (String.ofList c.rest) = .error (.atCursor ⟨c.rest, 0⟩) := by
  have hskip : (Cursor.mk c.rest 0).skipBlank = ⟨c.rest, 0⟩ := by
    refine Cursor.skipBlank_of_head ?_
    rw [← hd]
    exact head?_dropWhile_isBlank d.rest
  have hbase : Further [] c.offset ⟨c.rest, 0⟩ c :=
    ⟨(List.append_nil _).symm, (Nat.zero_add _).symm⟩
  have hnone' : elementStep n ⟨c.rest, 0⟩ = none := by
    have hrel := elementStep_further (.inl rfl) hbase hn hn (.inl rfl)
    have hsame : c.skipBlank = d.skipBlank := by rw [← hd, Cursor.skipBlank_skipBlank]
    rw [elementStep_congr hsame, hnone] at hrel
    obtain ⟨h, -⟩ | ⟨r, r', -, h, -⟩ := rel_cases hrel
    · exact h
    · cases h
  have helements := elements_eq (c := ⟨c.rest, 0⟩) hn .nil hnone'
  rw [hskip] at helements
  exact ofSource_of_stop (by rw [ofSource_ofList, hskip]; exact helements) hne

/-- A source that cannot be read to its end is cut where reading stops. -/
theorem ofSource_stops {source : String} {stop : Cursor}
    (hrun : elements (Cursor.ofSource source).skipBlank = (ts, stop)) (hstop : stop.rest ≠ []) :
    ∃ front behind, source = front ++ behind ∧ front.utf8ByteSize = stop.offset ∧
      behind.toList = stop.rest ∧ (∃ root, ofSource front = .ok root ∧ root.children = ts) ∧
      ofSource behind = .error (.atCursor ⟨stop.rest, 0⟩) := by
  obtain ⟨d, hsteps, hnone, hd⟩ := steps_of_elements_le hrun (Cursor.length_skipBlank _)
  obtain ⟨d', hsteps', hskip⟩ := steps_from_skipBlank (Cursor.skipBlank_skipBlank _) hsteps
  obtain ⟨w, hw, hoffset⟩ :=
    (hsteps'.reaches fun _ _ _ => elementStep_reaches _).trans d'.reaches_skipBlank
  rw [← hskip, hd] at hw hoffset
  have hsource : source.toList = w ++ stop.rest := hw
  have hlength : (Cursor.ofSource source).rest.length = (w ++ stop.rest).length :=
    congrArg List.length hw
  rw [hlength] at hsteps' hnone
  refine ⟨String.ofList w, String.ofList stop.rest, ?_, ?_, String.toList_ofList, ?_, ?_⟩
  · rw [← String.ofList_append, ← hsource, String.ofList_toList]
  · rw [utf8ByteSize_ofList, hoffset]
    exact (Nat.zero_add _).symm
  · rw [Cursor.ofSource, hsource] at hsteps'
    exact ofSource_front hsteps' (by rw [← hskip, hd]) (Nat.le_refl _)
  · refine ofSource_behind hnone hd hstop ?_
    rw [List.length_append]
    exact Nat.le_add_left ..

/-- **What is read, and where reading stops, depends on nothing behind it.**  Every element of a source
can be read from its own text alone.  A source that cannot be read is cut in two by the place where
reading stops: there starts no blank, the front is read as the elements that were found, and the rest
cannot be read at its start, for the same reason. -/
theorem ofSource_localised (source : String) :
    (∀ t ∈ accepted source, ∃ root u, ofSource t.text = .ok root ∧ root.children = [u] ∧
      u.shift t.span.start = t) ∧
    match ofSource source with
    | .ok root => root.children = accepted source
    | .error e => e.offset < source.utf8ByteSize ∧ ∃ front behind, source = front ++ behind ∧
        front.utf8ByteSize = e.offset ∧ behind.toList.head?.any isBlank = false ∧
        (∃ root, ofSource front = .ok root ∧ root.children = accepted source) ∧
        ofSource behind = .error { e with offset := 0 } := by
  generalize hrun : elements (Cursor.ofSource source).skipBlank = run
  obtain ⟨ts, stop⟩ := run
  have haccepted : accepted source = ts := by rw [accepted, hrun]
  obtain ⟨d, hsteps, -, hd⟩ := steps_of_elements hrun
  rw [haccepted]
  refine ⟨fun t ht => ?_, ?_⟩
  · obtain ⟨before, c, e, hbefore, hread⟩ := hsteps.exists_step ht
    exact ofSource_element hread (hbefore.reaches fun _ _ _ => elementStep_reaches _).length_le
  · by_cases hstop : stop.rest = []
    · obtain ⟨text, start, hroot⟩ := ofSource_of_elements hrun hstop
      rw [hroot]
      rfl
    · obtain ⟨front, behind, rfl, hfront, hbehind, hread, hfails⟩ := ofSource_stops hrun hstop
      rw [ofSource_of_stop hrun hstop]
      refine ⟨?_, front, behind, rfl, hfront, ?_, hread, hfails⟩
      · have hpos := byteLength_pos hstop
        rw [← hbehind, ← utf8ByteSize_eq_byteLength] at hpos
        rw [String.utf8ByteSize_append, hfront]
        exact Nat.lt_add_of_pos_right hpos
      · rw [hbehind, ← hd]
        exact head?_dropWhile_isBlank d.rest

/-- The second line cannot be read: the comment in front of it can, and the line itself fails alike. -/
example : (ofSource "## a \nb = ;").toOption.isNone ∧ (accepted "## a \nb = ;").length = 1 ∧
    (ofSource "## a \n").toOption.map (·.children.length) = some 1 ∧
    (ofSource "b = ;").toOption.isNone := by
  decide +kernel

end Tree

end Chainlet
