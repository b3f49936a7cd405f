import Chainlet.Proofs.Grammar.Cover

/-!
# Proofs/Grammar/Nested — every node stands in the source, and its children stand inside of it

Every node of a derived tree was itself read somewhere behind the cursor of the tree, or stands for
nothing there (`Derives.behind`).  So it has the text of the source at the bytes that it spans
(`Behind.standsIn`), and **its children stand inside of it, one behind the other**
(`Derives.holds`).
-/

namespace Chainlet

/-! ## Spans of what was read -/

namespace Cursor

variable {c d : Cursor}

/-- What lies between two cursors is a word whose text is the text between them. -/
theorem Reaches.exists_word (h : c.Reaches d) :
    ∃ word, c.rest = word ++ d.rest ∧ d.offset = c.offset + byteLength word ∧
      c.textTo d = String.ofList word := by
  obtain ⟨word, hrest, hoffset⟩ := h
  refine ⟨word, hrest, hoffset, ?_⟩
  have hafter : d = c.after word d.rest := by rw [after, ← hoffset]
  rw [hafter]
  exact textTo_after hrest

theorem Reaches.utf8ByteSize_textTo (h : c.Reaches d) :
    c.offset + (c.textTo d).utf8ByteSize = d.offset := by
  obtain ⟨word, -, hoffset, htext⟩ := h.exists_word
  rw [htext, utf8ByteSize_ofList, hoffset]

end Cursor

/-- **A node spans the bytes between its cursors.** -/
theorem Derives.span_eq {c d : Cursor} {t : Tree} (h : Derives c t d) :
    t.span = ⟨c.offset, d.offset⟩ := by
  rw [Tree.span, h.start_eq, h.text_eq]
  exact congrArg (Span.mk c.offset) h.reaches.utf8ByteSize_textTo

/-- Nodes that stand inside a span, one behind the other. -/
structure Span.Holds (s : Span) (ts : List Tree) : Prop where
  inside : ∀ u ∈ ts, s.start ≤ u.span.start ∧ u.span.stop ≤ s.stop
  ordered : ts.Pairwise fun u v => u.span.stop ≤ v.span.start

namespace Span.Holds

theorem nil (s : Span) : s.Holds [] := ⟨fun _ h => absurd h List.not_mem_nil, .nil⟩

/-- What stands inside a span stands inside a wider one. -/
theorem widen {s s' : Span} {ts : List Tree} (h : s.Holds ts) (hstart : s'.start ≤ s.start)
    (hstop : s.stop ≤ s'.stop) : s'.Holds ts :=
  ⟨fun u hu => ⟨Nat.le_trans hstart (h.inside u hu).1, Nat.le_trans (h.inside u hu).2 hstop⟩,
    h.ordered⟩

/-- One more node in front. -/
theorem cons {s : Span} {middle : Nat} {t : Tree} {ts : List Tree}
    (ht : t.span = ⟨s.start, middle⟩) (hle : s.start ≤ middle) (hle' : middle ≤ s.stop)
    (h : (Span.mk middle s.stop).Holds ts) : s.Holds (t :: ts) := by
  have hmore : s.Holds ts := h.widen hle (Nat.le_refl _)
  refine ⟨List.forall_mem_cons.2 ⟨?_, hmore.inside⟩, .cons (fun u hu => ?_) h.ordered⟩
  · rw [ht]
    exact ⟨Nat.le_refl _, hle'⟩
  · rw [ht]
    exact (h.inside u hu).1

end Span.Holds

mutual

/-- **The children of a node stand inside of it, one behind the other.** -/
theorem Derives.holds {c d : Cursor} {t : Tree} :
    Derives c t d → (Span.mk c.offset d.offset).Holds t.children
  | .leaf _ _ _ => .nil _
  | .branch _ _ _ hinside => hinside.holds
  | .bracketed _ _ hopening hinside hclosing =>
    hinside.holds.widen (Cursor.reaches_after hopening).offset_le
      (Cursor.reaches_after hclosing).offset_le

theorem Fills.holds {rule : Rule} {c d : Cursor} {ts : List Tree} :
    Fills rule c ts d → (Span.mk c.offset d.offset).Holds ts
  | .done => .nil _
  | .blank hmore => hmore.holds.widen c.reaches_skipBlank.offset_le (Nat.le_refl _)
  | .sign _ htext hmore =>
    hmore.holds.widen (Cursor.reaches_after htext).offset_le (Nat.le_refl _)
  | .child hchild hmore =>
    .cons hchild.span_eq hchild.reaches.offset_le hmore.reaches.offset_le hmore.holds
  | .absent _ hmore => .cons rfl (Nat.le_refl _) hmore.reaches.offset_le hmore.holds

end

/-! ## Every node was read -/

/-- A node that was read behind a cursor, or that stands for nothing there. -/
def Behind (c : Cursor) (u : Tree) : Prop :=
  ∃ c', c.Reaches c' ∧
    ((∃ d, Derives c' u d) ∨ ∃ missing : Rule, u = Production.absent missing c')

theorem Behind.of_reaches {c d : Cursor} {u : Tree} (h : Behind d u) (hreach : c.Reaches d) :
    Behind c u := by
  obtain ⟨c', hc', hu⟩ := h
  exact ⟨c', hreach.trans hc', hu⟩

theorem Derives.behind_self {c d : Cursor} {t : Tree} (h : Derives c t d) : Behind c t :=
  ⟨c, c.reaches_refl, .inl ⟨d, h⟩⟩

mutual

/-- **Every node of a tree was read behind the cursor of the tree.** -/
theorem Derives.behind {c d : Cursor} {t : Tree} : Derives c t d → ∀ u ∈ t.nodes, Behind c u
  | .leaf hform hword htext =>
    Tree.forall_mem_nodes.2 ⟨(Derives.leaf hform hword htext).behind_self,
      fun _ h => absurd h List.not_mem_nil⟩
  | .branch hform hbrackets hlayout hinside =>
    Tree.forall_mem_nodes.2 ⟨(Derives.branch hform hbrackets hlayout hinside).behind_self,
      hinside.behind⟩
  | .bracketed hbrackets hlayout hopening hinside hclosing =>
    Tree.forall_mem_nodes.2
      ⟨(Derives.bracketed hbrackets hlayout hopening hinside hclosing).behind_self,
        fun t ht u hu => (hinside.behind t ht u hu).of_reaches (Cursor.reaches_after hopening)⟩

theorem Fills.behind {rule : Rule} {c d : Cursor} {ts : List Tree} :
    Fills rule c ts d → ∀ t ∈ ts, ∀ u ∈ t.nodes, Behind c u
  | .done => fun _ h => absurd h List.not_mem_nil
  | .blank hmore => fun t ht u hu => (hmore.behind t ht u hu).of_reaches c.reaches_skipBlank
  | .sign _ htext hmore => fun t ht u hu =>
    (hmore.behind t ht u hu).of_reaches (Cursor.reaches_after htext)
  | .child hchild hmore => List.forall_mem_cons.2
    ⟨hchild.behind, fun t ht u hu => (hmore.behind t ht u hu).of_reaches hchild.reaches⟩
  | @Fills.absent _ missing _ _ _ _ hmore => List.forall_mem_cons.2
    ⟨Tree.forall_mem_nodes.2 ⟨⟨c, c.reaches_refl, .inr ⟨missing, rfl⟩⟩,
      fun _ h => absurd h List.not_mem_nil⟩, hmore.behind⟩

end

/-! ## Places in the source -/

/-- Whether a node has the text that the source has at the bytes it spans.  Both ends of the span are
ends of characters. -/
def Tree.StandsIn (t : Tree) (source : String) : Prop :=
  ∃ before after : String, source = before ++ t.text ++ after ∧
    t.span = ⟨before.utf8ByteSize, (before ++ t.text).utf8ByteSize⟩

/-- A node with the text between two cursors of a source. -/
theorem Cursor.Reaches.standsIn {source : String} {c d : Cursor} {t : Tree}
    (hc : (ofSource source).Reaches c) (h : c.Reaches d) (hstart : t.start = some c.offset)
    (htext : t.text = c.textTo d) : t.StandsIn source := by
  obtain ⟨before, hsource, hoffset⟩ := hc
  obtain ⟨word, hrest, -, hword⟩ := h.exists_word
  have hbefore : c.offset = (String.ofList before).utf8ByteSize := by
    rw [utf8ByteSize_ofList, hoffset]
    exact Nat.zero_add _
  refine ⟨String.ofList before, String.ofList d.rest, ?_, ?_⟩
  · apply String.toList_injective
    rw [htext, hword, String.toList_append, String.toList_append, String.toList_ofList,
      String.toList_ofList, String.toList_ofList, List.append_assoc, ← hrest]
    exact hsource
  · rw [Tree.span, hstart, String.utf8ByteSize_append, ← hbefore]

variable {c : Cursor} {u : Tree}

/-- **A node has the text of the source at its place.** -/
theorem Behind.standsIn {source : String} (hc : (Cursor.ofSource source).Reaches c)
    (h : Behind c u) : u.StandsIn source := by
  obtain ⟨c', hreach, ⟨d, hu⟩ | ⟨missing, rfl⟩⟩ := h
  · exact (hc.trans hreach).standsIn hu.reaches hu.start_eq hu.text_eq
  · refine (hc.trans hreach).standsIn c'.reaches_refl rfl ?_
    obtain ⟨word, hrest, -, hword⟩ := c'.reaches_refl.exists_word
    rw [hword, List.self_eq_append_left.1 hrest]
    rfl

theorem Behind.holds (h : Behind c u) : u.span.Holds u.children := by
  obtain ⟨c', -, ⟨d, hu⟩ | ⟨missing, rfl⟩⟩ := h
  · rw [hu.span_eq]
    exact hu.holds
  · exact .nil _

end Chainlet
