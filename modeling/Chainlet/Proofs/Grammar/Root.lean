import Chainlet.Proofs.Grammar.Anchored
import Chainlet.Proofs.Grammar.Lossless
import Chainlet.Proofs.Outline.Basic
import Chainlet.Proofs.Program.Total
import Mathlib.Data.List.DropRight

/-!
# Proofs/Grammar/Root — where the root of a tree starts and ends

The root has the text of the source without the blanks around it, whatever its elements are.  It starts
where the first element does.  It ends where the text of the last one ends without the blanks at its end:
items end with their semicolons, but a comment runs to the end of its line and keeps the blanks there.
So **the root spans its elements unless the last one is a comment that ends with a blank**
(`Program.ofSource_span`), and then the end of that comment alone lies outside of it.
-/

namespace Chainlet

/-! ## Blanks at the end of a text -/

theorem dropTrailingBlank_append_blanks {text blanks : List Char} (h : blanks.all isBlank = true) :
    dropTrailingBlank (text ++ blanks) = dropTrailingBlank text := by
  have hall : ∀ c ∈ blanks.reverse, isBlank c = true :=
    fun c hc => List.all_eq_true.1 h c (List.mem_reverse.1 hc)
  rw [dropTrailingBlank, List.reverse_append, List.dropWhile_append_of_pos hall, dropTrailingBlank]

/-- What stands in front of a character that is no blank is kept. -/
theorem dropTrailingBlank_append_cons {c : Char} (h : isBlank c = false) (front text : List Char) :
    dropTrailingBlank (front ++ c :: text) = front ++ dropTrailingBlank (c :: text) := by
  have hkept : (c :: text).reverse.dropWhile isBlank ≠ [] := fun hnil => by
    have hall := List.dropWhile_eq_nil_iff.1 hnil c (by simp)
    exact absurd (hall.symm.trans h) (by decide)
  rw [dropTrailingBlank, List.reverse_append, List.dropWhile_append,
    if_neg (mt List.isEmpty_iff.1 hkept), List.reverse_append, List.reverse_reverse, dropTrailingBlank]

theorem dropTrailingBlank_eq_self {text : List Char} (h : text.getLast?.any isBlank = false) :
    dropTrailingBlank text = text := by
  refine List.rdropWhile_eq_self_iff.2 fun hne hlast => ?_
  rw [List.getLast?_eq_some_getLast hne, Option.any_some, hlast] at h
  cases h

theorem byteLength_dropTrailingBlank_le (text : List Char) :
    byteLength (dropTrailingBlank text) ≤ byteLength text := by
  obtain ⟨blanks, htext⟩ := exists_dropTrailingBlank text
  have htotal := congrArg byteLength htext
  rw [byteLength_append] at htotal
  omega

/-- Without the blanks at its end a text that has some is shorter. -/
theorem byteLength_dropTrailingBlank_eq_iff {text : List Char} :
    byteLength (dropTrailingBlank text) = byteLength text ↔ text.getLast?.any isBlank = false := by
  refine ⟨fun hlength => ?_, fun h => by rw [dropTrailingBlank_eq_self h]⟩
  obtain ⟨blanks, htext⟩ := exists_dropTrailingBlank text
  have hnone : blanks = [] := by
    by_contra hne
    have hpos := byteLength_pos hne
    have htotal := congrArg byteLength htext
    rw [byteLength_append] at htotal
    omega
  rw [hnone, List.append_nil] at htext
  rw [htext, dropTrailingBlank, List.getLast?_reverse]
  exact head?_dropWhile_isBlank _

/-! ## Elements -/

/-- Whether the text of a node ends with a blank. -/
def Tree.endsBlank (t : Tree) : Bool := t.text.toList.getLast?.any isBlank

namespace Grammar

open Production

/-- An element starts with a character that is no blank, and only a comment can end with one. -/
theorem elementWith_ends {n : Nat} {inner : Production} (hreads : inner.Reads (.category .expression))
    (hinner : inner.Trims) {c d : Cursor} {t : Tree} (h : elementWith n inner c = some (t, d)) :
    (∃ x more, t.text.toList = x :: more ∧ isBlank x = false) ∧
      (t.endsBlank = true → t.rule = .docElement) := by
  have hderives := (elementWith_reads hreads h).1
  rw [elementWith, either] at h
  cases hread : wrap .docElement (leaf .docComment .docComment) c with
  | some r =>
    obtain rfl : r = (t, d) := Option.some.inj (by simpa [hread] using h)
    obtain ⟨⟨comment, d'⟩, hread, heq⟩ := Option.bind_eq_some_iff.1 hread
    obtain ⟨⟨word, rest⟩, hword, hcomment⟩ := Option.map_eq_some_iff.1 hread
    cases hcomment
    cases heq
    have hform := Lexeme.docComment_forms hword
    rw [hderives.text_eq, Cursor.textTo_after (Lexeme.docComment_splits _ _ _ hword),
      String.toList_ofList]
    unfold Form.docComment at hform
    split at hform
    · exact ⟨⟨'#', _, rfl, by decide⟩, fun _ => rfl⟩
    · cases hform
  | none =>
    have hitem : itemElement n inner c = some (t, d) := by simpa [hread] using h
    obtain ⟨hhead, hlast⟩ := isTrimmed_iff.1 (itemElement_trims hinner hitem).text
    have hne : t.text.toList ≠ [] := fun hempty => by
      have hlt := (itemElement_reads hreads).length_lt rfl hitem
      have hrest := hderives.passes.1
      rw [hempty, List.nil_append] at hrest
      rw [hrest] at hlt
      exact Nat.lt_irrefl _ hlt
    obtain ⟨x, more, htext⟩ := List.exists_cons_of_ne_nil hne
    rw [htext, List.head?_cons, Option.any_some] at hhead
    exact ⟨⟨x, more, htext, hhead⟩, fun hblank =>
      absurd (hlast.symm.trans hblank) Bool.false_ne_true⟩

/-- The last of the steps that read something. -/
theorem steps_concat {step : Cursor → Option (Tree × Cursor)} {c d : Cursor} {ts : List Tree}
    {t : Tree} (h : Steps step c ts d) (hlast : ts.getLast? = some t) :
    ∃ front e, ts = front ++ [t] ∧ Steps step c front e ∧ step e = some (t, d) := by
  induction h with
  | nil => cases hlast
  | @cons c d e a as hstep hmore ih =>
    cases as with
    | nil =>
      cases hmore
      obtain rfl : a = t := Option.some.inj hlast
      exact ⟨[], c, rfl, .nil, hstep⟩
    | cons b bs =>
      obtain ⟨front, e', hfront, hsteps, hread⟩ := ih hlast
      exact ⟨a :: front, e', by rw [hfront, List.cons_append], .cons hstep hsteps, hread⟩

end Grammar

/-! ## The root and its elements -/

/-- How the span of a root goes with those of its first and of its last element. -/
structure Tree.SpansElements (tree first last : Tree) : Prop where
  start_eq : tree.span.start = first.span.start
  stop_eq : tree.span.stop = last.span.start + byteLength (dropTrailingBlank last.text.toList)
  /-- The span of the last element is that of its whole text. -/
  stop_eq_iff : tree.span.stop = last.span.stop ↔ last.endsBlank = false
  /-- Only a comment can reach beyond the root. -/
  comment : last.endsBlank = true → last.rule = .docElement
  /-- All elements but the last stand inside of the root, and the last one does if its end does. -/
  inside : ∀ u ∈ tree.children.dropLast, u.span.Inside tree.span
  inside_iff : (∀ u ∈ tree.children, u.span.Inside tree.span) ↔ last.endsBlank = false

namespace Tree

/-- The first element starts where the root does. -/
theorem ofSource_start {source : String} {tree first : Tree} (h : ofSource source = .ok tree)
    (hfirst : tree.children.head? = some first) : tree.span.start = first.span.start := by
  obtain ⟨ts, stop, rfl, hrun, -⟩ := ofSource_root h
  obtain ⟨d, hsteps, -, -⟩ := Grammar.steps_of_elements hrun
  cases hsteps with
  | nil => cases hfirst
  | cons hstep _ =>
    obtain rfl := Option.some.inj hfirst
    rw [Grammar.elementStep, Cursor.skipBlank_skipBlank] at hstep
    rw [(Grammar.elementWith_reads (Grammar.expressionAt_reads _) hstep).1.span_eq]
    rfl

/-- **The root ends where the last element ends without the blanks at its end.** -/
theorem ofSource_stop {source : String} {tree last : Tree} (h : ofSource source = .ok tree)
    (hlast : tree.children.getLast? = some last) :
    tree.span.stop = last.span.start + byteLength (dropTrailingBlank last.text.toList) ∧
      (last.endsBlank = true → last.rule = .docElement) := by
  obtain ⟨ts, stop, rfl, hrun, hstop⟩ := ofSource_root h
  obtain ⟨d, hsteps, -, hend⟩ := Grammar.steps_of_elements hrun
  generalize (Cursor.ofSource source).skipBlank = start at *
  obtain ⟨front, e, -, hfront, hread⟩ := Grammar.steps_concat hsteps hlast
  have hreads := Grammar.expressionAt_reads (start.rest.length + 1)
  have hderives := (Grammar.elementWith_reads hreads hread).1
  obtain ⟨⟨x, more, htext, hx⟩, hcomment⟩ :=
    Grammar.elementWith_ends hreads (Grammar.expressionAt_trims _) hread
  -- behind the last element the source has nothing but blanks
  have hblanks : d.rest.all isBlank = true := by
    have hnone : d.rest.dropWhile isBlank = [] := by rw [← hstop, ← hend]; rfl
    exact List.all_eq_true.2 (List.dropWhile_eq_nil_iff.1 hnone)
  obtain ⟨before, hbefore⟩ := ((hfront.reaches fun _ _ _ => Grammar.elementStep_reaches _).trans
    e.reaches_skipBlank).exists_passes
  have hroot : dropTrailingBlank start.rest = before ++ dropTrailingBlank last.text.toList := by
    rw [hbefore.1, hderives.passes.1, ← List.append_assoc, dropTrailingBlank_append_blanks hblanks,
      htext, dropTrailingBlank_append_cons hx]
  refine ⟨?_, hcomment⟩
  change start.offset + (String.ofList (dropTrailingBlank start.rest)).utf8ByteSize = _
  rw [hderives.span_eq, utf8ByteSize_ofList, hroot, byteLength_append, hbefore.2, Nat.add_assoc]

/-- The elements follow one another behind the start of the root. -/
theorem ofSource_ordered {source : String} {tree : Tree} (h : ofSource source = .ok tree) :
    (∀ u ∈ tree.children, tree.span.start ≤ u.span.start) ∧
      tree.children.Pairwise fun u v => u.span.stop ≤ v.span.start := by
  obtain ⟨ts, stop, rfl, hrun, -⟩ := ofSource_root h
  have holds := (Grammar.elements_fills hrun).1.holds
  exact ⟨fun u hu => (holds.inside u hu).1, holds.ordered⟩

theorem StandsIn.span_stop {t : Tree} {source : String} (h : t.StandsIn source) :
    t.span.stop = t.span.start + byteLength t.text.toList := by
  obtain ⟨before, after, -, hspan⟩ := h
  rw [hspan, String.utf8ByteSize_append, utf8ByteSize_eq_byteLength t.text]

/-- **The root of a source against its elements.** -/
theorem ofSource_spansElements {source : String} {tree first last : Tree}
    (h : ofSource source = .ok tree) (hfirst : tree.children.head? = some first)
    (hlast : tree.children.getLast? = some last) : tree.SpansElements first last := by
  obtain ⟨hstop, hcomment⟩ := ofSource_stop h hlast
  obtain ⟨hbehind, hordered⟩ := ofSource_ordered h
  obtain ⟨front, hchildren⟩ := List.getLast?_eq_some_iff.1 hlast
  have hmem : last ∈ tree.children := by rw [hchildren]; simp
  have hsize := ((ofSource_lossless h).stands last
    (mem_nodes_of_mem_children hmem last.mem_nodes_self)).span_stop
  have hle := byteLength_dropTrailingBlank_le last.text.toList
  have hiff : tree.span.stop = last.span.stop ↔ last.endsBlank = false := by
    rw [hstop, hsize, Nat.add_left_cancel_iff, byteLength_dropTrailingBlank_eq_iff, endsBlank]
  have hfront : ∀ u ∈ front, u.span.Inside tree.span := fun u hu => by
    rw [hchildren] at hbehind hordered
    have hbefore := (List.pairwise_append.1 hordered).2.2 u hu last (List.mem_singleton_self last)
    exact ⟨hbehind u (List.mem_append_left _ hu), by omega⟩
  refine ⟨ofSource_start h hfirst, hstop, hiff, hcomment, ?_, ?_⟩
  · rw [hchildren, List.dropLast_concat]
    exact hfront
  · rw [← hiff, hchildren, List.forall_mem_append, List.forall_mem_singleton]
    refine ⟨fun hall => ?_, fun hstops => ⟨hfront, hbehind last hmem, hstops.ge⟩⟩
    have hinside := hall.2.2
    omega

end Tree

/-- **The span of a program against its elements.**  It starts where the first element does, all
elements but the last lie inside of it, and so does the last one unless it is a comment that ends with a
blank: the span ends where its text ends without the blanks at the end. -/
theorem Program.ofSource_span {source : String} {tree : Tree} (h : Tree.ofSource source = .ok tree)
    (hne : tree.children ≠ []) :
    (∃ first last, tree.children.head? = some first ∧ tree.children.getLast? = some last ∧
      tree.SpansElements first last) ∧
    ∃ p, Program.ofSource source = .ok p ∧ p.span = some tree.span := by
  refine ⟨⟨_, _, List.head?_eq_some_head hne, List.getLast?_eq_some_getLast hne,
    Tree.ofSource_spansElements h (List.head?_eq_some_head hne) (List.getLast?_eq_some_getLast hne)⟩,
    ?_⟩
  obtain ⟨p, hp⟩ := Program.ofTree_ofSource h
  refine ⟨p, Program.ofSource_eq_ok.2 ⟨tree, h, hp⟩, ?_⟩
  obtain ⟨text, start, ts, stop, rfl, -, -⟩ := Tree.ofSource_eq_ok h
  obtain ⟨elements, -, heq⟩ := bind_eq_ok.1 hp
  cases heq
  rfl

/-- Blanks around the source are no part of a program that ends with an item. -/
theorem Program.ofSource_span_item :
    ∃ tree first last p, Tree.ofSource " ## a \nxy; " = .ok tree ∧ tree.SpansElements first last ∧
      Program.ofSource " ## a \nxy; " = .ok p ∧ p.span = some tree.span ∧
      tree.span = ⟨1, 10⟩ ∧ tree.children.map Tree.span = [⟨1, 6⟩, ⟨7, 10⟩] := by
  have hread : Tree.ofSource " ## a \nxy; " = .ok _ := rfl
  obtain ⟨⟨first, last, -, -, hspans⟩, p, hp, hspan⟩ := Program.ofSource_span hread nofun
  exact ⟨_, first, last, p, hread, hspans, hp, hspan, by decide +kernel, by decide +kernel⟩

/-- A comment at the end of a source keeps a blank that the root leaves out. -/
theorem Program.ofSource_span_comment :
    ∃ tree p, Tree.ofSource "## a " = .ok tree ∧ Program.ofSource "## a " = .ok p ∧
      p.span = some ⟨0, 4⟩ ∧ tree.span = ⟨0, 4⟩ ∧ tree.children.map Tree.span = [⟨0, 5⟩] ∧
      ¬∀ u ∈ tree.children, u.span.Inside tree.span := by
  refine ⟨_, _, rfl, rfl, by decide +kernel, by decide +kernel, by decide +kernel, fun hall => ?_⟩
  have hinside := (hall _ (List.mem_singleton_self _)).2
  revert hinside
  decide +kernel

end Chainlet
