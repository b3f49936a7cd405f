import Chainlet.Proofs.Program.Total
import Chainlet.Proofs.Respaced.Elements

/-!
# Proofs/Respaced/Source — blanks between the words of a source mean nothing

A run of blanks in a source that can be read stands between its words, unless it stands in a string or
in a comment.  **With any other run of blanks in its place, the source can be read as well, and its
program is the same but for the spans** (`Program.ofSource_respaced`).  The one place that is left out
is right behind a comment, where other blanks may be part of its line.
-/

namespace Chainlet

open Production Grammar

variable {z z' u : List Char} {c c' d e : Cursor} {t : Tree} {ts : List Tree} {n n' p : Nat}

/-! ## Steps -/

/-- A comment that does not end where the blanks begin is in front of them. -/
theorem docElement_respaced (hrest : c.rest = u ++ z) (hrest' : c'.rest = u ++ z')
    (hapart : t.Apart (c.offset + byteLength u)) (hread : docElement c = some (t, e)) :
    ReadBeside z z' (t, e) (docElement c') := by
  obtain ⟨w, rest, hw, he, -, hmem⟩ := docElement_eq_some hread
  have hstop : c.offset + byteLength (String.ofList w).toList < c.offset + byteLength u := by
    rw [← utf8ByteSize_eq_byteLength]
    exact hapart.comment _ hmem rfl (Nat.le_add_right _ _)
  rw [String.toList_ofList, Nat.add_lt_add_iff_left] at hstop
  rw [hrest, List.append_eq_append_iff] at hw
  obtain ⟨v, rfl, -⟩ | ⟨v, rfl, hv⟩ := hw
  · rw [byteLength_append] at hstop
    omega
  · refine docElement_before hread hrest hrest' ((congrArg Cursor.rest he).trans hv) ?_
    rintro rfl
    rw [List.append_nil] at hstop
    exact Nat.lt_irrefl _ hstop

/-- An item is in front of the blanks, or they are among its words. -/
theorem itemElement_apart (hz : SameBehind z z') (hrest : c.rest = u ++ z)
    (hrest' : c'.rest = u ++ z') (hapart : t.Apart (c.offset + byteLength u))
    (hn : c.rest.length ≤ n) (hn' : c'.rest.length ≤ n')
    (hread : itemElement n (expressionAt (n + 1)) c = some (t, e)) :
    ReadBeside z z' (t, e) (itemElement n' (expressionAt (n' + 1)) c') := by
  obtain ⟨w, hw, hoffset⟩ := (itemElement_reads (expressionAt_reads _) hread).1.reaches
  rw [hrest, List.append_eq_append_iff] at hw
  obtain ⟨v, rfl, hv⟩ | ⟨v, rfl, hv⟩ := hw
  · cases v with
    | nil => exact itemElement_before hread hrest hrest' (v := []) hv.symm hn hn'
    | cons x v =>
      have hstop : c.offset + byteLength u < e.offset := by
        have hx := x.utf8Size_pos
        rw [hoffset, byteLength_append, byteLength_cons]
        omega
      have hsettled :=
        settled_of_itemElement (expressionAt_reads _) hread hrest hz.blank hstop hapart
      obtain ⟨hnone, -⟩ | ⟨r, r', hsome, hsome', ht, he⟩ :=
        rel_cases (itemElement_respaced hz (.before hrest hrest' hsettled) hn hn')
      · rw [hread] at hnone
        cases hnone
      · rw [hread] at hsome
        cases hsome
        exact ⟨r'.1, r'.2, hsome', ht, he.beside⟩
  · exact itemElement_before hread hrest hrest' hv hn hn'

/-- **Each step of the one source is a step of the other one.** -/
theorem elementStep_respaced (hz : SameBehind z z') (h : Beside z z' c c')
    (hplace : c.offset + byteLength c.rest = p + byteLength z) (hapart : t.Apart p)
    (hn : c.rest.length ≤ n) (hn' : c'.rest.length ≤ n') (hread : elementStep n c = some (t, e)) :
    ReadBeside z z' (t, e) (elementStep n' c') := by
  have hskip := c.length_skipBlank.trans hn
  have hskip' := c'.length_skipBlank.trans hn'
  cases h.skipBlank hz with
  | behind hrest => exact elementWith_behind hrest hskip hskip' hread
  | @before u hrest hrest' =>
    obtain rfl : c.skipBlank.offset + byteLength u = p := by
      have htotal := c.reaches_skipBlank.total
      rw [hrest, byteLength_append] at htotal
      omega
    obtain hdoc | ⟨hnone, hitem⟩ := elementWith_eq_some.1 hread
    · obtain ⟨t', e', hdoc', hbeside⟩ := docElement_respaced hrest hrest' hapart hdoc
      exact ⟨t', e', elementWith_eq_some.2 (.inl hdoc'), hbeside⟩
    · obtain ⟨t', e', hitem', hbeside⟩ :=
        itemElement_apart hz hrest hrest' hapart hskip hskip' hitem
      have hnone' := docElement_none_respaced hz hrest hrest' hnone
      exact ⟨t', e', elementWith_eq_some.2 (.inr ⟨hnone', hitem'⟩), hbeside⟩

/-- **The elements of the one source are elements of the other one.** -/
theorem steps_respaced (hz : SameBehind z z') (hsteps : Steps (elementStep n) c ts d)
    (h : Beside z z' c c') (hplace : c.offset + byteLength c.rest = p + byteLength z)
    (hapart : ∀ t ∈ ts, t.Apart p) (hn : c.rest.length ≤ n) (hn' : c'.rest.length ≤ n') :
    ∃ ts' d', Steps (elementStep n') c' ts' d' ∧
      List.Forall₂ (Tree.Corresponds noSpan noSpan) ts ts' ∧ Beside z z' d d' := by
  induction hsteps generalizing c' with
  | nil => exact ⟨[], c', .nil, .nil, h⟩
  | cons hstep _ ih =>
    rw [List.forall_mem_cons] at hapart
    obtain ⟨t', e', hstep', ht, he⟩ := elementStep_respaced hz h hplace hapart.1 hn hn' hstep
    have hlt := elementStep_shortens n hstep
    have hlt' := elementStep_shortens n' hstep'
    obtain ⟨ts', d', hsteps', hts, hd⟩ := ih he ((elementStep_reaches n hstep).total.trans hplace)
      hapart.2 (by omega) (by omega)
    exact ⟨t' :: ts', d', .cons hstep' hsteps', .cons ht hts, hd⟩

/-! ## Sources -/

/-- Whether two spans have a byte in common. -/
def Span.Overlaps (s s' : Span) : Prop := max s.start s'.start < min s.stop s'.stop

instance (s s' : Span) : Decidable (s.Overlaps s') :=
  inferInstanceAs (Decidable (max s.start s'.start < min s.stop s'.stop))

theorem Span.overlaps_iff {s s' : Span} : s.Overlaps s' ↔ ∃ i, s.Contains i ∧ s'.Contains i := by
  simp only [Overlaps, Contains]
  constructor
  · exact fun h => ⟨max s.start s'.start, by omega⟩
  · rintro ⟨i, hi, hi'⟩
    omega

/-- Whether a run of blanks is outside of all strings and comments and not right behind a comment. -/
def Tree.Spares (gap : Span) (t : Tree) : Prop :=
  ∀ u ∈ t.nodes, (u.rule = .stringLiteral ∨ u.rule = .docComment → ¬u.span.Overlaps gap) ∧
    (u.rule = .docComment → u.span.stop ≠ gap.start)

instance (gap : Span) (t : Tree) : Decidable (t.Spares gap) :=
  inferInstanceAs (Decidable (∀ u ∈ t.nodes,
    (u.rule = .stringLiteral ∨ u.rule = .docComment → ¬u.span.Overlaps gap) ∧
      (u.rule = .docComment → u.span.stop ≠ gap.start)))

theorem Tree.Spares.apart {gap : Span} (h : t.Spares gap) (hgap : gap.start < gap.stop) :
    t.Apart gap.start := by
  have houtside : ∀ u ∈ t.nodes, u.rule = .stringLiteral ∨ u.rule = .docComment →
      ¬u.span.Contains gap.start := fun u hu hrule hcontains =>
    (h u hu).1 hrule (Span.overlaps_iff.2 ⟨gap.start, hcontains, Nat.le_refl _, hgap⟩)
  refine ⟨fun u hu hrule => houtside u hu (.inl hrule), fun u hu hrule hstart => ?_⟩
  have hout := houtside u hu (.inr hrule)
  have hne := (h u hu).2 hrule
  rw [Span.Contains] at hout
  omega

theorem Tree.Apart.child {rule : Rule} {text : String} {start : Option Nat}
    (h : (Tree.node rule text start ts).Apart p) (ht : t ∈ ts) : t.Apart p :=
  ⟨(forall_mem_nodes.1 h.string).2 t ht, (forall_mem_nodes.1 h.comment).2 t ht⟩

/-- Whether a text is a run of blanks. -/
def isGap (text : String) : Bool := !text.toList.isEmpty && text.toList.all isBlank

theorem exists_of_isGap {text : String} (h : isGap text = true) :
    ∃ x xs, text.toList = x :: xs ∧ ∀ y ∈ x :: xs, isBlank y = true := by
  rw [isGap, Bool.and_eq_true, List.all_eq_true] at h
  generalize text.toList = word at h
  cases word with
  | nil => cases h.1
  | cons x xs => exact ⟨x, xs, rfl, h.2⟩

theorem sameBehind_of_isGap {blanks blanks' : String} (h : isGap blanks = true)
    (h' : isGap blanks' = true) (after : List Char) :
    SameBehind (blanks.toList ++ after) (blanks'.toList ++ after) := by
  obtain ⟨x, xs, hx, hall⟩ := exists_of_isGap h
  obtain ⟨x', xs', hx', hall'⟩ := exists_of_isGap h'
  rw [hx, hx']
  refine ⟨hall x (List.mem_cons_self ..), hall' x' (List.mem_cons_self ..), ?_⟩
  rw [List.dropWhile_append_of_pos hall, List.dropWhile_append_of_pos hall']

theorem utf8ByteSize_lt_of_isGap {blanks : String} (h : isGap blanks = true) (before : String) :
    before.utf8ByteSize < (before ++ blanks).utf8ByteSize := by
  obtain ⟨x, xs, hx, -⟩ := exists_of_isGap h
  have hsize := x.utf8Size_pos
  rw [String.utf8ByteSize_append, utf8ByteSize_eq_byteLength blanks, hx, byteLength_cons]
  omega

/-- **The tree of a source with other blanks at one place.** -/
theorem Tree.corresponds_respaced {before blanks blanks' after : String} {tree : Tree}
    (h : ofSource (before ++ blanks ++ after) = .ok tree) (hblanks : isGap blanks = true)
    (hblanks' : isGap blanks' = true)
    (hspares : tree.Spares ⟨before.utf8ByteSize, (before ++ blanks).utf8ByteSize⟩) :
    ∃ tree', ofSource (before ++ blanks' ++ after) = .ok tree' ∧
      tree.Corresponds noSpan noSpan tree' := by
  have hz := sameBehind_of_isGap hblanks hblanks' after.toList
  have hapart := hspares.apart (utf8ByteSize_lt_of_isGap hblanks before)
  have hrest : ∀ word : String, (Cursor.ofSource (before ++ word ++ after)).rest
      = before.toList ++ (word.toList ++ after.toList) := fun word => by
    rw [Cursor.ofSource, String.toList_append, String.toList_append, List.append_assoc]
  obtain ⟨text, start, ts, stop, rfl, helements, hstop⟩ := ofSource_eq_ok h
  obtain ⟨d, hsteps, -, hd⟩ := steps_of_elements helements
  have hplace : (Cursor.ofSource (before ++ blanks ++ after)).skipBlank.offset
        + byteLength (Cursor.ofSource (before ++ blanks ++ after)).skipBlank.rest
      = before.utf8ByteSize + byteLength (blanks.toList ++ after.toList) := by
    rw [(Cursor.reaches_skipBlank _).total, hrest, byteLength_append, utf8ByteSize_eq_byteLength]
    exact Nat.zero_add _
  obtain ⟨ts', d', hsteps', hts, hbeside⟩ := steps_respaced hz hsteps
    ((Beside.before (hrest blanks) (hrest blanks')).skipBlank hz) hplace (fun _ => hapart.child)
    (Nat.le_refl _) (Nat.le_refl _)
  have hstop' : d'.skipBlank.rest = [] := by
    cases hbeside.skipBlank hz with
    | before hbefore _ =>
      rw [hd, hstop] at hbefore
      have hblank := hz.blank
      rw [(List.append_eq_nil_iff.1 hbefore.symm).2] at hblank
      cases hblank
    | behind hbehind => rw [hbehind, hd, hstop]
  have helements' := elements_eq (Nat.le_refl _) hsteps' (elementStep_none hstop')
  obtain ⟨text', start', h'⟩ := ofSource_of_elements helements' hstop'
  exact ⟨_, h', .node (fun hform => nomatch hform) rfl hts⟩

/-- **Blanks between words mean nothing**: another run of blanks in the place of one leaves the program
what it was, but for the spans. -/
theorem Program.ofSource_respaced {before blanks blanks' after : String} {tree : Tree}
    (h : Tree.ofSource (before ++ blanks ++ after) = .ok tree) (hblanks : isGap blanks = true)
    (hblanks' : isGap blanks' = true)
    (hspares : tree.Spares ⟨before.utf8ByteSize, (before ++ blanks).utf8ByteSize⟩) :
    ∃ p q, ofSource (before ++ blanks ++ after) = .ok p ∧
      ofSource (before ++ blanks' ++ after) = .ok q ∧ q.eraseSpans = p.eraseSpans := by
  obtain ⟨tree', h', hcorresponds⟩ := Tree.corresponds_respaced h hblanks hblanks' hspares
  have hrule : tree.rule = .program := by
    obtain ⟨text, start, ts, stop, rfl, -, -⟩ := Tree.ofSource_eq_ok h
    rfl
  obtain ⟨p, q, hp, hq, hsame⟩ := ofTree_agree hrule ⟨Tree.ofSource_conforms h, hcorresponds⟩
  exact ⟨p, q, ofSource_eq_ok.2 ⟨tree, h, hp⟩, ofSource_eq_ok.2 ⟨tree', h', hq⟩, hsame.symm⟩

/-- A line break for the blank in front of the arguments of a call, between a comment and a string. -/
theorem Program.ofSource_respaced_call :
    ∃ tree, Tree.ofSource ("## sum\n&add" ++ " " ++ "1, \"a b\" ;") = .ok tree ∧
      tree.Spares ⟨11, 12⟩ ∧ isGap " " = true ∧ isGap "\n\t" = true ∧
      ∃ p q, ofSource ("## sum\n&add" ++ " " ++ "1, \"a b\" ;") = .ok p ∧
        ofSource ("## sum\n&add" ++ "\n\t" ++ "1, \"a b\" ;") = .ok q ∧
        q.eraseSpans = p.eraseSpans := by
  have hspares : (Tree.ofSource ("## sum\n&add" ++ " " ++ "1, \"a b\" ;")).toOption.any
      (fun tree => decide (tree.Spares ⟨11, 12⟩)) = true := by decide +kernel
  cases h : Tree.ofSource ("## sum\n&add" ++ " " ++ "1, \"a b\" ;") with
  | error e =>
    rw [h] at hspares
    cases hspares
  | ok tree =>
    rw [h] at hspares
    have hgap : tree.Spares ⟨11, 12⟩ := of_decide_eq_true hspares
    exact ⟨tree, rfl, hgap, by decide, by decide, ofSource_respaced h (by decide) (by decide) hgap⟩

/-- Right behind a comment, a blank that breaks no line takes what follows into the comment. -/
example : (Program.ofSource "##a\n&f;").toOption.map (·.elements.length) = some 2 ∧
    (Program.ofSource "##a &f;").toOption.map (·.elements.length) = some 1 := by
  decide +kernel

end Chainlet
