import Chainlet.Proofs.Grammar.Lossless
import Chainlet.Proofs.Outline.Built

/-!
# Proofs/Outline/Source — the spans of a program are the places of its parts

Every node of a tree that was read fits into the source (`Tree.ofSource_fits`), so the outlines of what
is built from it do.  **The nodes of the program of a source have spans, and the text at each span is the
one that the node was made of** (`Program.ofSource_outline`): the text of an integer, the two quotes
around a string, the keyword in front of a definition.  Below the root, each span contains those of the
nodes inside.  The root leaves out the blanks at the end of the source, even those of a comment.
-/

namespace Chainlet

/-! ## Nodes of a source -/

/-- The root has the text of the source at its place. -/
theorem Tree.ofSource_standsIn {source : String} {tree : Tree} (h : ofSource source = .ok tree) :
    tree.StandsIn source := by
  obtain ⟨ts, stop, rfl, -, -⟩ := ofSource_root h
  obtain ⟨blanks, hblanks⟩ := exists_dropTrailingBlank (Cursor.ofSource source).skipBlank.rest
  exact (Cursor.reaches_skipBlank _).standsIn (Cursor.reaches_after hblanks) rfl
    (Cursor.textTo_after hblanks).symm

/-- **The elements of a tree fit into the source.** -/
theorem Tree.ofSource_fits {source : String} {tree : Tree} (h : ofSource source = .ok tree) :
    ∀ t ∈ tree.children, t.AllFit source := by
  have hspelt := spelt_of_conforms (ofSource_conforms h)
  obtain ⟨ts, stop, rfl, hrun, -⟩ := ofSource_root h
  have hstart : (Cursor.ofSource source).Reaches (Cursor.ofSource source).skipBlank :=
    Cursor.reaches_skipBlank _
  have hfills := (Grammar.elements_fills hrun).1
  have hanchored := Grammar.elements_anchored hrun
  intro t ht u hu
  have hbehind := hfills.behind t ht u hu
  exact ⟨hbehind.standsIn hstart, hbehind.holds, hanchored t ht u hu,
    (forall_mem_nodes.1 hspelt).2 t ht u hu⟩

/-! ## Programs -/

theorem Element.ofTree_sits {source : String} {t : Tree} {e : Element} (ht : t.AllFit source)
    (h : ofTree t = .ok e) : ∀ o ∈ e.outlines, o.Sits source t.span := by
  rw [ofTree.eq_def] at h
  split at h
  · next text start inner =>
    obtain ⟨i, hi, h⟩ := bind_eq_ok.1 h
    cases h
    have hinner : inner ∈ [inner] := List.mem_singleton_self inner
    exact fun o ho => ht.widen hinner ((inner.outlines (ht.child hinner)).item i hi o ho)
  · next text start inner =>
    obtain ⟨d, hd, h⟩ := bind_eq_ok.1 h
    cases h
    have hinner : inner ∈ [inner] := List.mem_singleton_self inner
    rw [outlines, List.forall_mem_singleton]
    exact ht.widen hinner (DocComment.ofTree_sits (ht.child hinner) hd)
  · cases h

/-- The outlines of a program were made of nodes of the source. -/
theorem Program.ofSource_sits {source : String} {p : Program} (h : ofSource source = .ok p) :
    ∀ o ∈ p.elements.flatMap Element.outlines, ∃ s, o.Sits source s := by
  obtain ⟨tree, htree, hp⟩ := ofSource_eq_ok.1 h
  have hfits := Tree.ofSource_fits htree
  obtain ⟨text, start, ts, stop, rfl, -, -⟩ := Tree.ofSource_eq_ok htree
  obtain ⟨es, hes, heq⟩ := bind_eq_ok.1 hp
  cases heq
  intro o ho
  obtain ⟨e, he, ho⟩ := List.mem_flatMap.1 ho
  obtain ⟨t, ht, hbuild⟩ := exists_of_mapM hes e he
  exact ⟨t.span, Element.ofTree_sits (hfits t ht) hbuild o ho⟩

/-- **The spans and the contents of a program are those of the source.** -/
theorem Program.ofSource_outline {source : String} {p : Program} (h : ofSource source = .ok p) :
    p.outline.TrueTo source := by
  have hparts := ofSource_sits h
  obtain ⟨tree, htree, hp⟩ := ofSource_eq_ok.1 h
  have hstands := Tree.ofSource_standsIn htree
  obtain ⟨text, start, ts, stop, rfl, -, -⟩ := Tree.ofSource_eq_ok htree
  obtain ⟨es, -, heq⟩ := bind_eq_ok.1 hp
  cases heq
  constructor
  case stands =>
    rw [outline, Outline.nodes, List.forall_mem_cons]
    obtain ⟨before, after, hsource, hspan⟩ := hstands
    refine ⟨⟨before, _, after, hsource, congrArg some hspan, trivial⟩, fun n hn => ?_⟩
    obtain ⟨o, ho, hn⟩ := Outline.mem_nodesAll.1 hn
    obtain ⟨s, hsits⟩ := hparts o ho
    exact hsits.stands n hn
  case encloses =>
    intro o ho
    obtain ⟨s, hsits⟩ := hparts o ho
    exact hsits.encloses

/-- A comment and a call, both with a character of two bytes: the call takes the ampersand along. -/
theorem Program.ofSource_outline_call :
    ∃ p, ofSource "##é\n&f \"ü\" + 1 ;" = .ok p ∧ p.outline.nodes.map Outline.span =
        [some ⟨0, 18⟩, some ⟨0, 4⟩, some ⟨5, 16⟩, some ⟨6, 7⟩, some ⟨8, 16⟩, some ⟨8, 12⟩, some ⟨15, 16⟩] ∧
      p.outline.TrueTo "##é\n&f \"ü\" + 1 ;" := by
  have hspans : (ofSource "##é\n&f \"ü\" + 1 ;").toOption.map (·.outline.nodes.map Outline.span) =
      some [some ⟨0, 18⟩, some ⟨0, 4⟩, some ⟨5, 16⟩, some ⟨6, 7⟩, some ⟨8, 16⟩, some ⟨8, 12⟩,
        some ⟨15, 16⟩] := by decide +kernel
  cases h : ofSource "##é\n&f \"ü\" + 1 ;" with
  | error e => rw [h] at hspans; cases hspans
  | ok p =>
    rw [h] at hspans
    exact ⟨p, rfl, Option.some.inj hspans, ofSource_outline h⟩

end Chainlet
