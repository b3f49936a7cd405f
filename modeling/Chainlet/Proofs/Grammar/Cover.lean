import Chainlet.Proofs.Grammar.Progress
import Chainlet.Proofs.Tree.Nodes

/-!
# Proofs/Grammar/Cover — between the tokens there is nothing but blanks and punctuation

`Covers c ts d` says that the way from one cursor to another consists of the words of `ts`, in that
order, and of fillers: blanks, and the marks that the grammar puts between words.  The tokens of a
tree cover what the tree was read from (`Derives.covers`), and so they follow one another in the
source (`Covers.pairwise`) and leave nothing out but fillers (`Covers.filled`).
-/

namespace Chainlet

/-! ## Fillers -/

/-- The marks that stand between words and leave no node. -/
def punctuation : List Char :=
  [';', ',', '.', ':', '=', '&', '<', '>', '(', ')', '[', ']', '{', '}', '$']

/-- A character that may stand outside of all tokens. -/
def isFiller (x : Char) : Bool := isBlank x || punctuation.contains x

theorem isFiller_of_isBlank {x : Char} (h : isBlank x = true) : isFiller x = true := by
  rw [isFiller, h, Bool.true_or]

namespace Rule

variable {r : Rule} {word opening closing : List Char}

theorem all_isFiller_of_separators (h : word ∈ r.separators) : word.all isFiller = true := by
  have hall : r.separators.all (·.all isFiller) = true := by cases r <;> decide
  exact List.all_eq_true.1 hall word h

theorem all_isFiller_of_brackets (h : r.brackets? = some (opening, closing)) :
    opening.all isFiller = true ∧ closing.all isFiller = true := by
  have hall : (r.brackets?.all fun marks =>
      marks.1.all isFiller && marks.2.all isFiller) = true := by cases r <;> decide
  rw [h] at hall
  exact (Bool.and_eq_true ..).mp hall

/-- A node with brackets is no token. -/
theorem isToken_of_brackets (h : r.brackets? = some (opening, closing)) : r.isToken = false := by
  cases r <;> first | rfl | cases h

/-- A node that may stand for nothing is no token. -/
theorem isToken_of_mayBeAbsent : r.mayBeAbsent = true → r.isToken = false := by
  cases r <;> decide

end Rule

/-! ## Covers -/

/-- Words that follow one another from one cursor to another, with fillers around them. -/
inductive Covers : Cursor → List Tree → Cursor → Prop where
  | done {c : Cursor} : Covers c [] c
  | filler {c d : Cursor} {x : Char} {rest : List Char} {ts : List Tree}
      (hx : isFiller x = true) (htext : c.rest = x :: rest) (hmore : Covers (c.after [x] rest) ts d) :
      Covers c ts d
  | token {c d : Cursor} {t : Tree} {word rest : List Char} {ts : List Tree} (hword : word ≠ [])
      (htext : c.rest = word ++ rest) (hspelt : t.text = String.ofList word)
      (hstart : t.start = some c.offset) (hmore : Covers (c.after word rest) ts d) :
      Covers c (t :: ts) d

namespace Covers

variable {c d e : Cursor} {ts us : List Tree}

theorem append (h : Covers c ts d) (hmore : Covers d us e) : Covers c (ts ++ us) e := by
  induction h with
  | done => exact hmore
  | filler hx htext _ ih => exact .filler hx htext (ih hmore)
  | token hword htext hspelt hstart _ ih => exact .token hword htext hspelt hstart (ih hmore)

/-- A run of fillers in front of a cover. -/
theorem fillers {word rest : List Char} (hword : word.all isFiller = true)
    (htext : c.rest = word ++ rest) (hmore : Covers (c.after word rest) ts d) : Covers c ts d := by
  induction word generalizing c with
  | nil => rwa [Cursor.after, ← show c.rest = rest from htext] at hmore
  | cons x xs ih =>
    rw [List.all_cons, Bool.and_eq_true] at hword
    refine .filler hword.1 htext (ih hword.2 rfl ?_)
    rwa [Cursor.after, Cursor.after, Nat.add_assoc, ← byteLength_append]

theorem blanks (hmore : Covers c.skipBlank ts d) : Covers c ts d := by
  have hall : (c.rest.takeWhile isBlank).all isFiller = true := by
    rw [List.all_eq_true]
    exact fun x hx => isFiller_of_isBlank (List.all_eq_true.1 List.all_takeWhile x hx)
  exact fillers hall List.takeWhile_append_dropWhile.symm hmore

end Covers

mutual

/-- **The tokens of a tree cover what it was read from.** -/
theorem Derives.covers {c d : Cursor} {t : Tree} : Derives c t d → Covers c t.tokens d
  | @Derives.leaf rule _ _ _ _ hform hword htext => by
    have htoken : rule.isToken = true := by rw [Rule.isToken, hform]; rfl
    rw [Tree.tokens_leaf htoken]
    exact .token (rule.word_ne_nil hform hword) htext rfl rfl .done
  | @Derives.branch rule _ _ _ hform _ _ hinside => by
    have htoken : rule.isToken = false := by rw [Rule.isToken, hform]; rfl
    rw [Production.branch, Tree.tokens_node htoken]
    exact hinside.covers
  | .bracketed hbrackets _ hopening hinside hclosing => by
    obtain ⟨hopen, hclose⟩ := Rule.all_isFiller_of_brackets hbrackets
    rw [Production.branch, Tree.tokens_node (Rule.isToken_of_brackets hbrackets),
      ← List.append_nil (Tree.tokensAll _)]
    exact .fillers hopen hopening (hinside.covers.append (.fillers hclose hclosing .done))

/-- The tokens of the children of a node cover what is between the two cursors. -/
theorem Fills.covers {rule : Rule} {c d : Cursor} {ts : List Tree} :
    Fills rule c ts d → Covers c (Tree.tokensAll ts) d
  | .done => .done
  | .blank hmore => hmore.covers.blanks
  | .sign hword htext hmore => .fillers (Rule.all_isFiller_of_separators hword) htext hmore.covers
  | .child hchild hmore => by
    rw [Tree.tokensAll_cons]
    exact hchild.covers.append hmore.covers
  | .absent hmissing hmore => by
    rw [Tree.tokensAll_cons, Production.absent,
      Tree.tokens_node (Rule.isToken_of_mayBeAbsent hmissing)]
    exact hmore.covers

end

/-! ## The bytes of a source -/

/-- Whether a byte lies in a span. -/
def Span.Contains (s : Span) (i : Nat) : Prop := s.start ≤ i ∧ i < s.stop

/-- Whether a byte of a source is one of those that encode a character. -/
def ByteOf (source : String) (i : Nat) (x : Char) : Prop :=
  ∃ before after : List Char, source.toList = before ++ x :: after ∧
    byteLength before ≤ i ∧ i < byteLength before + x.utf8Size

namespace Covers

variable {c d : Cursor} {ts : List Tree}

theorem reaches (h : Covers c ts d) : c.Reaches d := by
  induction h with
  | done => exact Cursor.reaches_refl _
  | filler _ htext _ ih => exact (Cursor.reaches_after htext).trans ih
  | token _ htext _ _ _ ih => exact (Cursor.reaches_after htext).trans ih

/-- The span of a word at a cursor. -/
theorem span_token {t : Tree} {word : List Char} (rest : List Char)
    (hspelt : t.text = String.ofList word) (hstart : t.start = some c.offset) :
    t.span = ⟨c.offset, (c.after word rest).offset⟩ := by
  rw [Tree.span, hstart, hspelt, utf8ByteSize_ofList]
  rfl

/-- **The tokens of a cover stand between its cursors, and none of them is empty.** -/
theorem bounds (h : Covers c ts d) :
    ∀ t ∈ ts, c.offset ≤ t.span.start ∧ t.span.start < t.span.stop ∧ t.span.stop ≤ d.offset := by
  induction h with
  | done => exact fun t h => absurd h (List.not_mem_nil)
  | @filler c d x rest ts _ _ _ ih =>
    intro t ht
    obtain ⟨hlow, hrest⟩ := ih t ht
    exact ⟨Nat.le_trans (Nat.le_add_right ..) hlow, hrest⟩
  | @token c d t word rest ts hword htext hspelt hstart hmore ih =>
    have hpos : 0 < byteLength word := byteLength_pos hword
    have hspan := span_token rest hspelt hstart
    have hlast : (c.after word rest).offset ≤ d.offset := hmore.reaches.offset_le
    have hafter : (c.after word rest).offset = c.offset + byteLength word := rfl
    rw [List.forall_mem_cons, hspan]
    refine ⟨⟨Nat.le_refl _, by dsimp only; omega, hlast⟩, fun u hu => ?_⟩
    obtain ⟨hlow, hrest⟩ := ih u hu
    exact ⟨by omega, hrest⟩

/-- **The tokens of a cover follow one another.** -/
theorem pairwise (h : Covers c ts d) : ts.Pairwise fun t u => t.span.stop ≤ u.span.start := by
  induction h with
  | done => exact .nil
  | filler _ _ _ ih => exact ih
  | @token c d t word rest ts hword htext hspelt hstart hmore ih =>
    refine .cons (fun u hu => ?_) ih
    rw [span_token rest hspelt hstart]
    exact (hmore.bounds u hu).1

/-- **Every byte of a cover lies in a token or belongs to a filler.** -/
theorem filled {source : String} (h : Covers c ts d) (hc : (Cursor.ofSource source).Reaches c)
    {i : Nat} (hlow : c.offset ≤ i) (hhigh : i < d.offset) :
    (∃ t ∈ ts, t.span.Contains i) ∨ ∃ x, ByteOf source i x ∧ isFiller x = true := by
  induction h with
  | done => exact absurd hlow (Nat.not_le.2 hhigh)
  | @filler c d x rest ts hx htext hmore ih =>
    by_cases hi : i < (c.after [x] rest).offset
    · obtain ⟨before, hsource, hoffset⟩ := hc
      have hbefore : c.offset = byteLength before := hoffset.trans (Nat.zero_add _)
      refine .inr ⟨x, ⟨before, rest, hsource.trans (congrArg _ htext), ?_, ?_⟩, hx⟩
      · rwa [← hbefore]
      · rwa [← hbefore]
    · exact ih (hc.trans (Cursor.reaches_after htext)) (Nat.not_lt.1 hi) hhigh
  | @token c d t word rest ts hword htext hspelt hstart hmore ih =>
    by_cases hi : i < (c.after word rest).offset
    · refine .inl ⟨t, List.mem_cons_self .., ?_⟩
      rw [span_token rest hspelt hstart]
      exact ⟨hlow, hi⟩
    · obtain ⟨u, hu, hcontains⟩ | hfiller :=
        ih (hc.trans (Cursor.reaches_after htext)) (Nat.not_lt.1 hi) hhigh
      · exact .inl ⟨u, List.mem_cons_of_mem _ hu, hcontains⟩
      · exact .inr hfiller

end Covers

end Chainlet
