import Mathlib.Data.Option.Basic
import Chainlet.Proofs.Grammar.Nested
import Chainlet.Proofs.Respaced.Item

/-!
# Proofs/Respaced/Elements — elements are read alike with other blanks among them

Of the elements of a source, those behind the blanks have the same text in front of them in both
sources (`elementWith_behind`).  Those in front of the blanks are read from their own text alone
(`itemElement_before`), as long as no comment ends where the blanks begin (`docElement_before`).  And
the one with the blanks in it is an item, in which **no string is open where they begin**
(`settled_of_itemElement`).
-/

namespace Chainlet

open Production Grammar

variable {z z' u v : List Char} {c c' d e : Cursor} {t : Tree} {ts : List Tree} {n n' p : Nat}

/-! ## The place of the blanks -/

/-- The bytes of a source up to its end. -/
theorem Cursor.Reaches.total (h : c.Reaches d) :
    d.offset + byteLength d.rest = c.offset + byteLength c.rest := by
  obtain ⟨word, hrest, hoffset⟩ := h
  rw [hrest, hoffset, byteLength_append, Nat.add_assoc]

/-- Whether the byte at a place is in no string or comment of a tree, nor right behind a comment. -/
structure Tree.Apart (p : Nat) (t : Tree) : Prop where
  string : ∀ u ∈ t.nodes, u.rule = .stringLiteral → ¬u.span.Contains p
  comment : ∀ u ∈ t.nodes, u.rule = .docComment → u.span.start ≤ p → u.span.stop < p

/-! ## The element around the blanks -/

/-- All nodes of a node inside an item are inside the item. -/
theorem Tree.nodes_isInner (hconforms : t.conforms = true) (h : t.isInner = true) :
    ∀ u ∈ t.nodes, u.isInner = true := by
  induction t using Tree.induction with
  | h rule text start ts ih =>
    obtain ⟨hlayout, -, hall⟩ := conforms_iff.1 hconforms
    exact forall_mem_nodes.2
      ⟨h, fun t ht => ih t ht (hall t ht) (children_isInner h hlayout t ht)⟩

/-- **No string is open where blanks begin among the words of an item.** -/
theorem settled_of_covers (h : Covers c ts e) (hrest : c.rest = u ++ z)
    (hz : z.head?.any isBlank = true) (hstop : c.offset + byteLength u < e.offset)
    (hforms : ∀ t ∈ ts, t.rule ≠ .docComment ∧
      ∃ form, t.rule.form? = some form ∧ form t.text.toList = true)
    (hstring : ∀ t ∈ ts, t.rule = .stringLiteral → ¬t.span.Contains (c.offset + byteLength u)) :
    Settled u := by
  induction h generalizing u with
  | done => omega
  | @filler c d x rest ts hx htext _ ih =>
    cases u with
    | nil => rfl
    | cons y u =>
      rw [htext, List.cons_append, List.cons.injEq] at hrest
      obtain ⟨rfl, hrest⟩ := hrest
      have hoffset : (c.after [x] rest).offset + byteLength u = c.offset + byteLength (x :: u) :=
        Nat.add_assoc ..
      have hquote : Settled [x] := by
        refine settled_of_not_quote ?_
        rw [List.all_cons, List.all_nil, Bool.and_true, bne_iff_ne]
        rintro rfl
        exact absurd hx (by decide)
      refine (hquote.append_iff (v := u)).2 (ih hrest (hoffset ▸ hstop) hforms ?_)
      rw [hoffset]
      exact hstring
  | @token c d t word rest ts hword htext hspelt hstart _ ih =>
    rw [List.forall_mem_cons] at hforms hstring
    obtain ⟨⟨hdoc, form, hform, hspelling⟩, hforms⟩ := hforms
    rw [hspelt, String.toList_ofList] at hspelling
    rw [htext, List.append_eq_append_iff] at hrest
    obtain ⟨v, rfl, hrest⟩ | ⟨y, hsplit, hy⟩ := hrest
    · -- the word stands in front of the blanks
      have hoffset : (c.after word rest).offset + byteLength v
          = c.offset + byteLength (word ++ v) := by
        rw [byteLength_append]
        exact Nat.add_assoc ..
      refine (Rule.word_settled hform hdoc hspelling).append_iff.2
        (ih hrest (hoffset ▸ hstop) hforms ?_)
      rw [hoffset]
      exact hstring.2
    · cases y with
      | nil =>
        rw [List.append_nil] at hsplit
        exact hsplit ▸ Rule.word_settled hform hdoc hspelling
      | cons y ys =>
        -- the blanks begin in the word, so it is a string
        subst hy hsplit
        by_cases hrule : t.rule = .stringLiteral
        · refine absurd ?_ (hstring.1 hrule)
          have hy := y.utf8Size_pos
          rw [Covers.span_token rest hspelt hstart, Span.Contains, Cursor.after, byteLength_append,
            byteLength_cons]
          dsimp only
          omega
        · have hvisible := List.all_eq_true.1 (Rule.visible_of_form hform hdoc hrule hspelling) y
            (List.mem_append_right _ (List.mem_cons_self ..))
          have hblank : isBlank y = true := hz
          rw [isBlank_eq_false hvisible] at hblank
          cases hblank

/-- An item has no comments in it. -/
theorem no_docComment_of_itemElement {inner : Production}
    (hinner : inner.Reads (.category .expression)) (h : itemElement n inner c = some (t, e)) :
    ∀ u ∈ t.nodes, u.rule ≠ .docComment := by
  obtain ⟨⟨t', d⟩, hitem, h⟩ := Option.bind_eq_some_iff.1 h
  obtain ⟨e, -, h⟩ := Option.bind_eq_some_iff.1 h
  cases h
  obtain ⟨hderives, hslot⟩ := item_reads hinner hitem
  refine Tree.forall_mem_nodes.2 ⟨(nomatch ·), List.forall_mem_singleton.2 fun u hu hrule => ?_⟩
  have hu := Tree.rule_isInner
    (Tree.nodes_isInner hderives.conforms (Slot.isInner_of_admits rfl hslot) u hu)
  rw [hrule] at hu
  cases hu

/-- **No string is open where blanks begin in an item.** -/
theorem settled_of_itemElement {inner : Production} (hinner : inner.Reads (.category .expression))
    (h : itemElement n inner c = some (t, e)) (hrest : c.rest = u ++ z)
    (hz : z.head?.any isBlank = true) (hstop : c.offset + byteLength u < e.offset)
    (hapart : t.Apart (c.offset + byteLength u)) : Settled u := by
  obtain ⟨hderives, -⟩ := itemElement_reads hinner h
  have hmem : ∀ v ∈ t.tokens, v ∈ t.nodes ∧ v.rule.isToken = true :=
    fun v hv => List.mem_filter.1 hv
  refine settled_of_covers hderives.covers hrest hz hstop (fun v hv => ?_) fun v hv =>
    hapart.string v (hmem v hv).1
  obtain ⟨form, hform⟩ := Option.isSome_iff_exists.1 (hmem v hv).2
  have hspelt := Tree.spelt_of_conforms hderives.conforms v (hmem v hv).1
  rw [Tree.spelt, hform] at hspelt
  exact ⟨no_docComment_of_itemElement hinner h v (hmem v hv).1, form, hform, hspelt⟩

/-! ## Comments -/

/-- A comment. -/
def docElement : Production := wrap .docElement (leaf .docComment .docComment)

/-- What a comment was read from: its word, and another line behind it or nothing. -/
theorem docElement_eq_some (h : docElement c = some (t, e)) :
    ∃ word rest, c.rest = word ++ rest ∧ e = c.after word rest ∧ StartsLine rest ∧
      Tree.node .docComment (String.ofList word) (some c.offset) [] ∈ t.nodes := by
  obtain ⟨⟨comment, d⟩, hread, h⟩ := Option.bind_eq_some_iff.1 h
  cases h
  obtain ⟨⟨word, rest⟩, hword, heq⟩ := Option.map_eq_some_iff.1 hread
  cases heq
  refine ⟨word, rest, Lexeme.docComment_splits _ _ _ hword, rfl, ?_, ?_⟩
  · obtain ⟨head, middle, tail, -, htail, -⟩ := Lexeme.glue_eq_some.1 hword
    cases htail
    have hhead := List.head?_dropWhile_not (· != '\n') middle
    cases hdrop : (middle.dropWhile (· != '\n')).head? with
    | none => exact .inl (List.head?_eq_none_iff.1 hdrop)
    | some x =>
      have hx : x = '\n' := by simpa [hdrop] using hhead
      exact .inr (hdrop.trans (congrArg some hx))
  · simp [branch, Tree.nodes, Tree.nodesAll]

/-- Whether a comment is read is seen from the two signs in front of it. -/
theorem docElement_eq_none : docElement c = none ↔ Lexeme.exactly ['#', '#'] c.rest = none := by
  rw [docElement, wrap, leaf, Lexeme.docComment, Lexeme.glue]
  cases Lexeme.exactly ['#', '#'] c.rest with
  | none => simp
  | some r => simp [Lexeme.many]

theorem docElement_none_respaced (hz : SameBehind z z') (hrest : c.rest = u ++ z)
    (hrest' : c'.rest = u ++ z') (h : docElement c = none) : docElement c' = none := by
  have hsigns : Lexeme.Even (Lexeme.exactly ['#', '#']) := Lexeme.exactly_even rfl
  have heven := hsigns hz u
  rw [docElement_eq_none, hrest] at h
  rw [docElement_eq_none, hrest']
  rw [h] at heven
  obtain ⟨-, hnone⟩ | ⟨r, r', hsome, -⟩ := rel_cases heven
  · exact hnone
  · cases hsome

/-- An element is a comment, or else an item. -/
theorem elementWith_eq_some {inner : Production} {r : Tree × Cursor} :
    elementWith n inner c = some r ↔
      docElement c = some r ∨ docElement c = none ∧ itemElement n inner c = some r :=
  Option.orElse_eq_some _ _ _

/-! ## Elements side by side -/

/-- Two cursors with the same text up to the blanks, or two cursors behind them. -/
inductive Beside (z z' : List Char) (c c' : Cursor) : Prop where
  | before {u : List Char} (hrest : c.rest = u ++ z) (hrest' : c'.rest = u ++ z')
  | behind (hrest : c'.rest = c.rest)

theorem InStep.beside (h : InStep z z' c c') : Beside z z' c c' := by
  cases h with
  | before hrest hrest' => exact .before hrest hrest'
  | behind hrest => exact .behind hrest

theorem Beside.skipBlank (hz : SameBehind z z') (h : Beside z z' c c') :
    Beside z z' c.skipBlank c'.skipBlank := by
  cases h with
  | @before u hrest hrest' =>
    obtain hsame | ⟨hdrop, hdrop'⟩ := skipBlank_respaced hz hrest hrest'
    · exact .behind hsame
    · exact .before hdrop hdrop'
  | behind hrest => exact .behind (congrArg (List.dropWhile isBlank) hrest)

/-- A node of the same words is read in the other source, up to a cursor beside. -/
def ReadBeside (z z' : List Char) (r : Tree × Cursor) (y : Option (Tree × Cursor)) : Prop :=
  ∃ t e, y = some (t, e) ∧ r.1.Corresponds noSpan noSpan t ∧ Beside z z' r.2 e

/-- A tree corresponds to itself wherever it stands. -/
theorem Tree.shift_corresponds (k k' : Nat) (t : Tree) :
    (t.shift k).Corresponds noSpan noSpan (t.shift k') := by
  induction t using Tree.induction with
  | h rule text start ts ih =>
    rw [shift_node, shift_node]
    refine .node (fun _ => rfl) rfl ?_
    rw [List.forall₂_map_left_iff, List.forall₂_map_right_iff, List.forall₂_same]
    exact ih

/-- What is read from a text alone is read in front of two texts as nodes of the same words. -/
theorem read_alone {more more' : List Char} {k k' : Nat} {x y y' : Option (Tree × Cursor)}
    (h : Option.Rel (ReadFurther more k) x y) (h' : Option.Rel (ReadFurther more' k') x y')
    (hread : y = some (t, e)) :
    ∃ t' e' v, y' = some (t', e') ∧ t.Corresponds noSpan noSpan t' ∧ e.rest = v ++ more ∧
      e'.rest = v ++ more' := by
  subst hread
  cases h with
  | @some r _ hr =>
    cases h' with
    | @some _ r' hr' =>
      obtain ⟨htree, hrest, -⟩ := hr
      obtain ⟨htree', hrest', -⟩ := hr'
      refine ⟨r'.1, r'.2, r.2.rest, rfl, ?_, hrest, hrest'⟩
      dsimp only at htree
      rw [htree, htree']
      exact r.1.shift_corresponds k k'

/-- An element behind the blanks. -/
theorem elementWith_behind (hrest : c'.rest = c.rest) (hn : c.rest.length ≤ n)
    (hn' : c'.rest.length ≤ n') (hread : elementWith n (expressionAt (n + 1)) c = some (t, e)) :
    ReadBeside z z' (t, e) (elementWith n' (expressionAt (n' + 1)) c') := by
  have hbase : Further [] c.offset ⟨c.rest, 0⟩ c :=
    ⟨(List.append_nil _).symm, (Nat.zero_add _).symm⟩
  have hbase' : Further [] c'.offset ⟨c.rest, 0⟩ c' :=
    ⟨hrest.trans (List.append_nil _).symm, (Nat.zero_add _).symm⟩
  obtain ⟨t', e', v, hread', ht, he, he'⟩ := read_alone
    (elementWith_further (.inl rfl) hbase hn hn (.inl rfl))
    (elementWith_further (.inl rfl) hbase' hn hn' (.inl rfl)) hread
  exact ⟨t', e', hread', ht, .behind (he'.trans he.symm)⟩

/-- An item in front of the blanks. -/
theorem itemElement_before (hread : itemElement n (expressionAt (n + 1)) c = some (t, e))
    (hrest : c.rest = u ++ z) (hrest' : c'.rest = u ++ z') (he : e.rest = v ++ z)
    (hn : c.rest.length ≤ n) (hn' : c'.rest.length ≤ n') :
    ReadBeside z z' (t, e) (itemElement n' (expressionAt (n' + 1)) c') := by
  obtain ⟨w, hw, hfence⟩ := fence_of_itemElement (expressionAt_reads _) hread
  obtain rfl : u = w ++ v := by
    rw [hrest, he, ← List.append_assoc, List.append_cancel_right_eq] at hw
    exact hw
  have hbounded : ∀ more, Bounded more 0 (w ++ v) := fun more => .inr (hfence v)
  have hbase : Further z c.offset ⟨w ++ v, 0⟩ c := ⟨hrest, (Nat.zero_add _).symm⟩
  have hbase' : Further z' c'.offset ⟨w ++ v, 0⟩ c' := ⟨hrest', (Nat.zero_add _).symm⟩
  obtain ⟨t', e', v', hread', ht, hv, hv'⟩ := read_alone
    (itemElement_further ⟨hbase, hbounded _⟩ (Nat.le_refl _) hn)
    (itemElement_further ⟨hbase', hbounded _⟩ (Nat.le_refl _) hn') hread
  exact ⟨t', e', hread', ht, .before hv hv'⟩

/-- A comment in front of the blanks that does not end where they begin. -/
theorem docElement_before (hread : docElement c = some (t, e)) (hrest : c.rest = u ++ z)
    (hrest' : c'.rest = u ++ z') (he : e.rest = v ++ z) (hv : v ≠ []) :
    ReadBeside z z' (t, e) (docElement c') := by
  obtain ⟨w, rest, hw, rfl, hline, -⟩ := docElement_eq_some hread
  obtain rfl : rest = v ++ z := he
  obtain rfl : u = w ++ v := by
    rw [hrest, ← List.append_assoc, List.append_cancel_right_eq] at hw
    exact hw
  obtain ⟨x, xs, rfl⟩ := List.exists_cons_of_ne_nil hv
  have hline' : StartsLine (x :: xs ++ z') := hline.imp (nomatch ·) id
  have hbase : Further (x :: xs ++ z) c.offset ⟨w, 0⟩ c :=
    ⟨by rw [hrest, List.append_assoc], (Nat.zero_add _).symm⟩
  have hbase' : Further (x :: xs ++ z') c'.offset ⟨w, 0⟩ c' :=
    ⟨by rw [hrest', List.append_assoc], (Nat.zero_add _).symm⟩
  obtain ⟨t', e', v', hread', ht, he, he'⟩ :=
    read_alone (docElement_further hline hbase) (docElement_further hline' hbase') hread
  rw [← List.append_assoc] at he he'
  exact ⟨t', e', hread', ht, .before he he'⟩

end Chainlet
