import Chainlet.Proofs.Grammar.Nested
import Chainlet.Proofs.Spelling.Word

/-!
# Proofs/Grammar/Tight — productions read no blanks at their ends

Every word of the language but a comment begins and ends with a visible character
(`Rule.isTrimmed_of_form`).  `Cursor.Tight` says that the text between two cursors does so too, and
`Cursor.Ends` allows for nothing to be read at all.  A derivation may have blanks at its ends, so this
is proved of the productions themselves: a production that `Trims` moves from one cursor tightly to
another and reads a tree whose nodes are all `Tidy`, and each way of putting productions together
keeps it.
-/

namespace Chainlet

/-! ## Words without blanks around them -/

/-- Whether a text neither begins nor ends with a blank. -/
def isTrimmed (text : List Char) : Bool :=
  !text.head?.any isBlank && !text.getLast?.any isBlank

/-- A text is trimmed if neither its first nor its last character is a blank. -/
theorem isTrimmed_iff {text : List Char} :
    isTrimmed text = true ↔
      text.head?.any isBlank = false ∧ text.getLast?.any isBlank = false := by
  rw [isTrimmed, Bool.and_eq_true, Bool.not_eq_true', Bool.not_eq_true']

/-- The ends of a text are those of the words at its ends, whatever stands between them. -/
theorem isTrimmed_append {first last : List Char} (middle : List Char) (hfirst : first ≠ [])
    (hlast : last ≠ []) (h : isTrimmed first = true) (h' : isTrimmed last = true) :
    isTrimmed (first ++ (middle ++ last)) = true := by
  have hhead : (first ++ (middle ++ last)).head? = first.head? := by
    cases first with
    | nil => exact absurd rfl hfirst
    | cons c cs => rfl
  have htail : (first ++ (middle ++ last)).getLast? = last.getLast? := by
    rw [← List.append_assoc, List.getLast?_append, List.getLast?_eq_some_getLast hlast,
      Option.some_or]
  rw [isTrimmed_iff, hhead, htail]
  exact ⟨(isTrimmed_iff.1 h).1, (isTrimmed_iff.1 h').2⟩

/-- A word of visible characters has no blank at its ends. -/
theorem isTrimmed_of_visible {word : List Char} (h : word.all isVisible = true) :
    isTrimmed word = true := by
  have hblank : ∀ {o : Option Char}, (∀ c ∈ o, c ∈ word) → o.any isBlank = false := by
    intro o ho
    cases o with
    | none => rfl
    | some c => exact isBlank_eq_false (List.all_eq_true.1 h c (ho c rfl))
  exact isTrimmed_iff.2 ⟨hblank fun _ => List.mem_of_mem_head?, hblank fun _ => List.mem_of_getLast?⟩

namespace Form

variable {word : List Char}

/-- A name is visible throughout. -/
theorem visible_of_name (h : name word = true) : word.all isVisible = true := by
  cases word with
  | nil => rfl
  | cons c cs =>
    rw [name, Bool.and_eq_true] at h
    rw [List.all_cons, isVisible_of_isNameStart h.1, Bool.true_and]
    exact List.all_eq_true.2 fun x hx => isVisible_of_isNameChar (List.all_eq_true.1 h.2 x hx)

/-- A run of digits and underscores is visible throughout. -/
theorem visible_of_digits {isDigit : Char → Bool} (h : digits isDigit word = true)
    (hdigit : ∀ c, isDigit c = true → isVisible c = true) : word.all isVisible = true := by
  cases word with
  | nil => rfl
  | cons c cs =>
    rw [digits, Bool.and_eq_true] at h
    rw [List.all_cons, hdigit c h.1, Bool.true_and, List.all_eq_true]
    intro x hx
    have hx' := List.all_eq_true.1 h.2 x hx
    rw [Bool.or_eq_true, beq_iff_eq] at hx'
    obtain hx' | rfl := hx'
    · exact hdigit x hx'
    · rfl

/-- A number with a prefix is visible throughout. -/
theorem visible_of_based {mark : List Char} {isDigit : Char → Bool}
    (h : based mark isDigit word = true) (hmark : mark.all isVisible = true)
    (hdigit : ∀ c, isDigit c = true → isVisible c = true) : word.all isVisible = true := by
  rw [based, Bool.and_eq_true] at h
  obtain ⟨digits, rfl⟩ := List.isPrefixOf_iff_prefix.1 h.1
  rw [List.drop_left] at h
  rw [List.all_append, hmark, visible_of_digits h.2 hdigit]
  rfl

end Form

/-- The words that are neither comments nor strings are visible. -/
theorem Rule.visible_of_form {r : Rule} {form : List Char → Bool} {word : List Char}
    (hform : r.form? = some form) (hdoc : r ≠ .docComment) (hstring : r ≠ .stringLiteral)
    (h : form word = true) : word.all isVisible = true := by
  cases r <;> cases hform
  case docComment => exact absurd rfl hdoc
  case stringLiteral => exact absurd rfl hstring
  case keyword =>
    unfold Form.keyword at h
    split at h
    · next cs => exact (List.all_cons ..).trans (Form.visible_of_name h)
    · cases h
  case operator =>
    rw [Form.operator, Bool.and_eq_true, Bool.and_eq_true] at h
    exact List.all_eq_true.2 fun x hx =>
      isVisible_of_isOperatorChar (List.all_eq_true.1 h.2.2 x hx)
  case name => exact Form.visible_of_name h
  case decimalLiteral => exact Form.visible_of_digits h fun _ => isVisible_of_isDigit
  case binaryLiteral => exact Form.visible_of_based h rfl fun _ => isVisible_of_isBinaryDigit
  case hexLiteral => exact Form.visible_of_based h rfl fun _ => isVisible_of_isHexDigit
  case octalLiteral => exact Form.visible_of_based h rfl fun _ => isVisible_of_isOctalDigit
  case floatLiteral =>
    obtain ⟨whole, fraction, hwhole, hfraction, rfl⟩ := Form.float_eq h
    rw [List.all_append, List.all_cons, Form.visible_of_digits hwhole fun _ => isVisible_of_isDigit,
      Form.visible_of_digits hfraction fun _ => isVisible_of_isDigit]
    rfl
  case booleanLiteral =>
    rw [Form.boolean, Bool.or_eq_true, beq_iff_eq, beq_iff_eq] at h
    obtain rfl | rfl := h <;> rfl

/-- **Only comments may end with a blank.** -/
theorem Rule.isTrimmed_of_form {r : Rule} {form : List Char → Bool} {word : List Char}
    (hform : r.form? = some form) (hdoc : r ≠ .docComment) (h : form word = true) :
    isTrimmed word = true := by
  by_cases hstring : r = .stringLiteral
  · -- the content of a string may be blank, but its quotes are not
    subst hstring
    cases hform
    obtain ⟨content, rfl⟩ := Form.string_eq h
    have hquote : isTrimmed ['"'] = true := rfl
    change isTrimmed (['"'] ++ (content ++ ['"'])) = true
    exact isTrimmed_append content (List.cons_ne_nil _ _) (List.cons_ne_nil _ _) hquote hquote
  · exact isTrimmed_of_visible (r.visible_of_form hform hdoc hstring h)

/-! ## Tight ways -/

namespace Cursor

/-- A way from one cursor to another that begins and ends with characters that are not blank. -/
def Tight (c d : Cursor) : Prop :=
  ∃ word, word ≠ [] ∧ isTrimmed word = true ∧ c.rest = word ++ d.rest ∧
    d.offset = c.offset + byteLength word

/-- A way that goes nowhere, or ends tightly. -/
def Ends (c d : Cursor) : Prop := d = c ∨ ∃ e, c.Reaches e ∧ e.Tight d

variable {a b c d : Cursor} {word rest : List Char}

/-- A word without blanks at its ends leads tightly behind itself. -/
theorem tight_after (hword : word ≠ []) (htrim : isTrimmed word = true)
    (htext : c.rest = word ++ rest) : c.Tight (c.after word rest) :=
  ⟨word, hword, htrim, htext, rfl⟩

/-- A tight way is a way. -/
theorem Tight.reaches (h : c.Tight d) : c.Reaches d := by
  obtain ⟨word, -, -, hrest, hoffset⟩ := h
  exact ⟨word, hrest, hoffset⟩

/-- The text of a tight way. -/
theorem Tight.isTrimmed_textTo (h : c.Tight d) : isTrimmed (c.textTo d).toList = true := by
  obtain ⟨word, -, htrim, hrest, hoffset⟩ := h
  have hafter : d = c.after word d.rest := by rw [after, ← hoffset]
  rw [hafter, textTo_after hrest, String.toList_ofList]
  exact htrim

/-- Two tight ways with anything between them. -/
theorem Tight.trans (h : a.Tight b) (hbetween : b.Reaches c) (h' : c.Tight d) : a.Tight d := by
  obtain ⟨first, hfirst, htrim, hrest, hoffset⟩ := h
  obtain ⟨middle, hmiddle, hoffset'⟩ := hbetween
  obtain ⟨last, hlast, htrim', hrest', hoffset''⟩ := h'
  refine ⟨first ++ (middle ++ last), by simp [hfirst],
    isTrimmed_append middle hfirst hlast htrim htrim', ?_, ?_⟩
  · rw [hrest, hmiddle, hrest', List.append_assoc, List.append_assoc]
  · rw [hoffset'', hoffset', hoffset, byteLength_append, byteLength_append, Nat.add_assoc,
      Nat.add_assoc]

theorem Ends.refl (c : Cursor) : c.Ends c := .inl rfl

/-- What is tight may have anything in front of it. -/
theorem Reaches.ends (h : b.Reaches c) (h' : c.Tight d) : b.Ends d := .inr ⟨c, h, h'⟩

theorem Tight.ends (h : c.Tight d) : c.Ends d := c.reaches_refl.ends h

theorem Ends.reaches (h : c.Ends d) : c.Reaches d := by
  obtain rfl | ⟨e, hreach, htight⟩ := h
  · exact reaches_refl _
  · exact hreach.trans htight.reaches

/-- The later of two ends counts. -/
theorem Ends.trans (h : b.Ends c) (h' : c.Ends d) : b.Ends d := by
  obtain rfl | ⟨e, hreach, htight⟩ := h'
  · exact h
  · exact (h.reaches.trans hreach).ends htight

/-- A tight way stays tight if it goes on to an end. -/
theorem Tight.trans_ends (h : a.Tight b) (h' : b.Ends d) : a.Tight d := by
  obtain rfl | ⟨e, hreach, htight⟩ := h'
  · exact h
  · exact h.trans hreach htight

end Cursor

/-! ## Tidy nodes -/

namespace Tree

/-- A node without blanks around its text, unless that is a comment.  An operator and its operands
stand between the ends of the whole. -/
structure Tidy (t : Tree) : Prop where
  trimmed : t.rule ≠ .docElement → t.rule ≠ .docComment → isTrimmed t.text.toList = true
  edges : t.rule = .binaryExpression → ∃ left sign right, t.children = [left, sign, right] ∧
    t.span.start = left.span.start ∧ t.span.stop = right.span.stop

/-- Whether every node of a tree is tidy. -/
def AllTidy (t : Tree) : Prop := ∀ u ∈ t.nodes, u.Tidy

variable {rule : Rule} {text : String} {start : Option Nat} {ts : List Tree}

/-- A node with a trimmed text is tidy, unless it is an operator with its operands. -/
theorem tidy_of_trimmed (hrule : rule ≠ .binaryExpression) (htext : isTrimmed text.toList = true) :
    (node rule text start ts).Tidy :=
  ⟨fun _ _ => htext, fun h => absurd h hrule⟩

/-- A comment is tidy, whatever its line ends with. -/
theorem tidy_of_comment (hrule : rule = .docElement ∨ rule = .docComment) :
    (node rule text start ts).Tidy := by
  have hne : rule ≠ .binaryExpression := by obtain rfl | rfl := hrule <;> decide
  exact ⟨fun h h' => (hrule.elim h h').elim, fun h => absurd h hne⟩

/-- A tree is tidy all the way down if its root and the trees of its children are. -/
theorem allTidy_node (h : (node rule text start ts).Tidy) (hts : ∀ t ∈ ts, t.AllTidy) :
    (node rule text start ts).AllTidy :=
  forall_mem_nodes.2 ⟨h, hts⟩

/-- The node of a missing part has no text, so no blank in it. -/
theorem allTidy_absent {missing : Rule} (hrule : missing ≠ .binaryExpression) (c : Cursor) :
    (Production.absent missing c).AllTidy :=
  allTidy_node (tidy_of_trimmed hrule rfl) fun _ h => absurd h List.not_mem_nil

end Tree

/-! ## Productions -/

namespace Production

/-- A tree that was read tightly between two cursors. -/
structure Trimmed (c : Cursor) (t : Tree) (d : Cursor) : Prop where
  tight : c.Tight d
  text : isTrimmed t.text.toList = true
  tidy : t.AllTidy

/-- A production whose trees are read tightly. -/
def Trims (p : Production) : Prop :=
  ∀ ⦃c : Cursor⦄ ⦃t : Tree⦄ ⦃d : Cursor⦄, p c = some (t, d) → Trimmed c t d

/-- Nodes that were read up to an end. -/
structure TrimmedAll (c : Cursor) (ts : List Tree) (d : Cursor) : Prop where
  ends : c.Ends d
  tidy : ∀ t ∈ ts, t.AllTidy

variable {p q : Production} {rule : Rule} {n : Nat} {c d e : Cursor} {t : Tree} {ts us : List Tree}

/-- No nodes are read up to where one is. -/
theorem TrimmedAll.nil (c : Cursor) : TrimmedAll c [] c :=
  ⟨.refl c, fun _ h => absurd h List.not_mem_nil⟩

/-- Nodes that are read one behind the other are read up to the last end. -/
theorem TrimmedAll.append (h : TrimmedAll c ts d) (h' : TrimmedAll d us e) :
    TrimmedAll c (ts ++ us) e :=
  ⟨h.ends.trans h'.ends, fun t ht => (List.mem_append.1 ht).elim (h.tidy t) (h'.tidy t)⟩

/-- One node that is read tightly is read up to its end. -/
theorem Trimmed.all (h : Trimmed c t d) : TrimmedAll c [t] d :=
  ⟨h.tight.ends, List.forall_mem_singleton.2 h.tidy⟩

/-- A node that was read tightly, behind anything. -/
theorem Trimmed.all_behind (h : Trimmed d t e) (hreach : c.Reaches d) : TrimmedAll c [t] e :=
  ⟨hreach.ends h.tight, List.forall_mem_singleton.2 h.tidy⟩

/-- A sign is read tightly. -/
theorem Only.tight {l : Lexeme} {word : List Char} (hl : Only l word) (hword : word ≠ [])
    (htrim : isTrimmed word = true) (h : Production.sign l c = some d) : c.Tight d := by
  obtain ⟨rest, htext, rfl⟩ := hl.sign h
  exact Cursor.tight_after hword htrim htext

theorem exactly_tight {x : Char} (h : sign (.exactly [x]) c = some d) (hx : isBlank x = false) :
    c.Tight d :=
  (only_exactly [x]).tight (List.cons_ne_nil _ _) (isTrimmed_iff.2 ⟨hx, hx⟩) h

theorem equals_tight (h : sign .equals c = some d) : c.Tight d :=
  only_equals.tight (List.cons_ne_nil _ _) rfl h

/-- A node for everything between two cursors. -/
theorem branch_trimmed (hrule : rule ≠ .binaryExpression) (htight : c.Tight d)
    (hts : ∀ t ∈ ts, t.AllTidy) : Trimmed c (branch rule c d ts) d :=
  ⟨htight, htight.isTrimmed_textTo,
    Tree.allTidy_node (Tree.tidy_of_trimmed hrule htight.isTrimmed_textTo) hts⟩

/-- A leaf whose words have no blanks at their ends is read tightly. -/
theorem leaf_trims {l : Lexeme} {form : List Char → Bool} (hl : l.Forms form) (hsplit : l.Splits)
    (hform : rule.form? = some form) (hdoc : rule ≠ .docComment) : (leaf rule l).Trims := by
  intro c t d h
  obtain ⟨⟨word, rest⟩, hread, heq⟩ := Option.map_eq_some_iff.1 h
  cases heq
  have htrim : isTrimmed (String.ofList word).toList = true := by
    rw [String.toList_ofList]
    exact rule.isTrimmed_of_form hform hdoc (hl hread)
  have hrule : rule ≠ .binaryExpression := by rintro rfl; cases hform
  refine ⟨Cursor.tight_after (rule.word_ne_nil hform (hl hread)) ?_ (hsplit _ _ _ hread), htrim,
    Tree.allTidy_node (Tree.tidy_of_trimmed hrule htrim) fun _ h => absurd h List.not_mem_nil⟩
  rwa [String.toList_ofList] at htrim

/-- A node around a tight one is tight. -/
theorem wrap_trims (hp : p.Trims) (hrule : rule ≠ .binaryExpression) : (wrap rule p).Trims := by
  intro c t d h
  obtain ⟨⟨child, d⟩, hread, h⟩ := Option.bind_eq_some_iff.1 h
  cases h
  exact branch_trimmed hrule (hp hread).tight (hp hread).all.tidy

/-- A choice reads tightly if both of its productions do. -/
theorem either_trims (hp : p.Trims) (hq : q.Trims) : (either p q).Trims := by
  intro c t d h
  rw [either] at h
  cases hread : p c with
  | none => exact hq (by simpa [hread] using h)
  | some _ => exact hp (by simpa [hread] using h)

/-- A choice of several productions reads tightly if each of them does. -/
theorem firstOf_trims {ps : List Production} (h : ∀ p ∈ ps, Trims p) : (firstOf ps).Trims := by
  intro c t d hread
  obtain ⟨p, hp, hread⟩ := List.exists_of_findSome?_eq_some hread
  exact h p hp hread

/-- The node of a part that may be missing is read up to where its part ends. -/
theorem optionalPart_trims (hp : p.Trims) (h : optionalPart p c = (t, d)) :
    TrimmedAll c [t] d := by
  rw [optionalPart] at h
  split at h
  · next child d' hread =>
    cases h
    have hchild := hp hread
    refine ⟨c.reaches_skipBlank.ends hchild.tight, List.forall_mem_singleton.2 ?_⟩
    exact Tree.allTidy_node (Tree.tidy_of_trimmed (by decide) hchild.text) hchild.all.tidy
  · cases h
    exact ⟨.refl _, List.forall_mem_singleton.2 (Tree.allTidy_absent (by decide) _)⟩

/-! ## Repetition -/

/-- A repetition reads up to an end if each step does. -/
theorem repeated_trims {step : Cursor → Option (Tree × Cursor)}
    (hstep : ∀ ⦃c t d⦄, step c = some (t, d) → TrimmedAll c [t] d)
    (h : repeated step n c = (ts, d)) : TrimmedAll c ts d := by
  induction n generalizing c ts with
  | zero => cases h; exact .nil _
  | succ n ih =>
    rw [repeated] at h
    split at h
    · cases h; exact .nil _
    · next t d' hread =>
      generalize hrest : repeated step n d' = rest at h
      obtain ⟨us, e⟩ := rest
      cases h
      exact (hstep hread).append (ih hrest)

/-- A list that is not empty starts tightly behind the blanks. -/
theorem separated_trims (hp : p.Trims) (h : separated n p c = (ts, d)) :
    (∀ t ∈ ts, t.AllTidy) ∧ (ts = [] ∧ d = c ∨ c.skipBlank.Tight d) := by
  rw [separated] at h
  split at h
  · cases h
    exact ⟨fun _ h => absurd h List.not_mem_nil, .inl ⟨rfl, rfl⟩⟩
  · next t d' hread =>
    have hstep : ∀ ⦃c t d⦄, (do p (← sign comma c.skipBlank).skipBlank) = some (t, d) →
        TrimmedAll c [t] d := by
      intro c t d h
      obtain ⟨e, hsign, h⟩ := Option.bind_eq_some_iff.1 h
      have hcomma : c.skipBlank.Tight e := exactly_tight hsign rfl
      exact (hp h).all_behind
        ((c.reaches_skipBlank.trans hcomma.reaches).trans e.reaches_skipBlank)
    generalize hrest : repeated _ n d' = rest at h
    obtain ⟨us, e⟩ := rest
    have hmore := repeated_trims hstep hrest
    cases h
    exact ⟨((hp hread).all.append hmore).tidy, .inr ((hp hread).tight.trans_ends hmore.ends)⟩

/-- A list with commas is read up to the end of its last element. -/
theorem commaList_trims (hp : p.Trims) (hrule : rule ≠ .binaryExpression)
    (h : commaList n rule p c = (t, d)) : TrimmedAll c [t] d := by
  rw [commaList] at h
  split at h
  · cases h
    exact ⟨.refl _, List.forall_mem_singleton.2 (Tree.allTidy_absent hrule _)⟩
  · next ts d' hne hlist =>
    cases h
    obtain ⟨htidy, ⟨rfl, -⟩ | htight⟩ := separated_trims hp hlist
    · exact absurd rfl hne
    · exact (branch_trimmed hrule htight htidy).all_behind c.reaches_skipBlank

/-- A list between brackets is read tightly, for it begins and ends with them. -/
theorem bracketed_trims {opening closing : List Char} (hp : p.Trims)
    (hrule : rule ≠ .binaryExpression) (hopening : opening ≠ [] ∧ isTrimmed opening = true)
    (hclosing : closing ≠ [] ∧ isTrimmed closing = true) :
    (bracketed n rule opening closing p).Trims := by
  intro c t d h
  obtain ⟨d₁, hopen, h⟩ := Option.bind_eq_some_iff.1 h
  generalize hlist : separated n p d₁ = list at h
  obtain ⟨ts, e⟩ := list
  obtain ⟨g, hclose, h⟩ := Option.bind_eq_some_iff.1 h
  cases h
  obtain ⟨htidy, hends⟩ := separated_trims hp hlist
  have hinside : d₁.Reaches e := by
    obtain ⟨-, rfl⟩ | htight := hends
    · exact Cursor.reaches_refl _
    · exact d₁.reaches_skipBlank.trans htight.reaches
  have htail : e.Reaches (if ts.isEmpty then e else (sign comma e.skipBlank).getD e) := by
    split
    · exact Cursor.reaches_refl _
    · cases hsign : sign comma e.skipBlank with
      | none => exact Cursor.reaches_refl _
      | some f =>
        have hcomma : e.skipBlank.Tight f := exactly_tight hsign rfl
        exact e.reaches_skipBlank.trans hcomma.reaches
  have hstart := (only_exactly opening).tight hopening.1 hopening.2 hopen
  have hstop := (only_exactly closing).tight hclosing.1 hclosing.2 hclose
  have hbetween := (hinside.trans htail).trans (Cursor.reaches_skipBlank _)
  exact branch_trimmed hrule (hstart.trans hbetween hstop) htidy

end Production

end Chainlet
