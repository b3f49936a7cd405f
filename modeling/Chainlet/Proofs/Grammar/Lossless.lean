import Chainlet.Proofs.Grammar.Tidy

/-!
# Proofs/Grammar/Lossless — a parse tree keeps the whole source

Whatever source can be read, its tree loses nothing of it: the tokens stand in the source in their
order, every byte outside of them belongs to a blank or to a mark of punctuation, and the nodes nest
as the text does (`Tree.ofSource_lossless`).  The root and the comments are exceptions of two kinds:
the root leaves out the blanks at its end even if a comment ends with them, so its children may reach
beyond it, and comments are the only nodes that end with blanks.
-/

namespace Chainlet

/-! ## The root -/

theorem head?_dropWhile_isBlank (text : List Char) :
    (text.dropWhile isBlank).head?.any isBlank = false := by
  have hhead := List.head?_dropWhile_not isBlank text
  cases hdrop : (text.dropWhile isBlank).head? with
  | none => rfl
  | some x => simpa [hdrop] using hhead

/-- Dropping the blanks at the end of a text takes away a run of them. -/
theorem exists_dropTrailingBlank (text : List Char) :
    ∃ blanks, text = dropTrailingBlank text ++ blanks := by
  refine ⟨(text.reverse.takeWhile isBlank).reverse, ?_⟩
  rw [dropTrailingBlank, ← List.reverse_append, List.takeWhile_append_dropWhile,
    List.reverse_reverse]

theorem isTrimmed_dropTrailingBlank {text : List Char} (h : text.head?.any isBlank = false) :
    isTrimmed (dropTrailingBlank text) = true := by
  refine isTrimmed_iff.2 ⟨?_, ?_⟩
  · obtain ⟨blanks, htext⟩ := exists_dropTrailingBlank text
    cases hdrop : dropTrailingBlank text with
    | nil => rfl
    | cons c cs =>
      rw [htext, hdrop] at h
      exact h
  · rw [dropTrailingBlank, List.getLast?_reverse]
    exact head?_dropWhile_isBlank _

/-! ## Whole sources -/

/-- A tree that keeps every byte of a source but fillers, each at its place. -/
structure Tree.Lossless (tree : Tree) (source : String) : Prop where
  /-- Every node has the text of the source at its place. -/
  stands : ∀ t ∈ tree.nodes, t.StandsIn source
  /-- No token is empty. -/
  nonempty : ∀ t ∈ tree.tokens, t.span.start < t.span.stop
  /-- The tokens follow one another. -/
  ordered : tree.tokens.Pairwise fun t u => t.span.stop ≤ u.span.start
  /-- A byte in no token belongs to a blank or to a mark of punctuation. -/
  filled : ∀ i < source.utf8ByteSize, (∀ t ∈ tree.tokens, ¬t.span.Contains i) →
    ∃ x, ByteOf source i x ∧ isFiller x = true
  /-- In every element, the children of a node stand inside of it, one behind the other. -/
  nested : ∀ element ∈ tree.children, ∀ t ∈ element.nodes, t.span.Holds t.children
  /-- Only comments have blanks around their texts, and operations end where their operands do. -/
  tidy : tree.AllTidy

namespace Tree

/-- **The tree of a source keeps the whole source.** -/
theorem ofSource_lossless {source : String} {tree : Tree} (h : ofSource source = .ok tree) :
    tree.Lossless source := by
  obtain ⟨ts, stop, rfl, hrun, hstop⟩ := ofSource_root h
  have hstart : (Cursor.ofSource source).Reaches (Cursor.ofSource source).skipBlank :=
    Cursor.reaches_skipBlank _
  have hhead : (Cursor.ofSource source).skipBlank.rest.head?.any isBlank = false :=
    head?_dropWhile_isBlank _
  have hfills := (Grammar.elements_fills hrun).1
  have htidy := Grammar.elements_tidy hrun
  have hcovers : Covers (Cursor.ofSource source) (tokensAll ts) stop := hfills.covers.blanks
  have hsize : stop.offset = source.utf8ByteSize := by
    obtain ⟨word, hword, hoffset⟩ := hcovers.reaches
    rw [hstop, List.append_nil] at hword
    rw [hoffset, ← hword, utf8ByteSize_eq_byteLength]
    exact Nat.zero_add _
  clear h hrun
  generalize (Cursor.ofSource source).skipBlank = start at *
  have htokens : (node .program (String.ofList (dropTrailingBlank start.rest))
      (some start.offset) ts).tokens = tokensAll ts := tokens_node rfl
  constructor
  case stands =>
    obtain ⟨blanks, hblanks⟩ := exists_dropTrailingBlank start.rest
    have hroot := Cursor.reaches_after hblanks
    exact forall_mem_nodes.2 ⟨hstart.standsIn hroot rfl (Cursor.textTo_after hblanks).symm,
      fun t ht u hu => (hfills.behind t ht u hu).standsIn hstart⟩
  case nonempty =>
    rw [htokens]
    exact fun t ht => (hcovers.bounds t ht).2.1
  case ordered =>
    rw [htokens]
    exact hcovers.pairwise
  case filled =>
    rw [htokens]
    intro i hi hnone
    obtain ⟨t, ht, hcontains⟩ | hfiller :=
      hcovers.filled (Cursor.reaches_refl _) (Nat.zero_le i) (hsize ▸ hi)
    · exact absurd hcontains (hnone t ht)
    · exact hfiller
  case nested => exact fun t ht u hu => (hfills.behind t ht u hu).holds
  case tidy =>
    refine allTidy_node (tidy_of_trimmed (by decide) ?_) htidy
    rw [String.toList_ofList]
    exact isTrimmed_dropTrailingBlank hhead

/-- A comment that ends with a blank, and a call whose last argument is an operation. -/
theorem ofSource_lossless_call :
    ∃ tree, ofSource "## é \n&f a , \"b \" + 1 ; " = .ok tree ∧
      tree.tokens.map span = [⟨0, 6⟩, ⟨8, 9⟩, ⟨10, 11⟩, ⟨14, 18⟩, ⟨19, 20⟩, ⟨21, 22⟩] ∧
      tree.Lossless "## é \n&f a , \"b \" + 1 ; " :=
  ⟨_, rfl, by decide +kernel, ofSource_lossless rfl⟩

end Tree

end Chainlet
