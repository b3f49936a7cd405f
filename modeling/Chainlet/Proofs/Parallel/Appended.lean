import Chainlet.Proofs.Parallel.Local

/-!
# Proofs/Parallel/Appended — a part stays what it is in a longer source

A part of a source may be read on its own, or in a longer source that has more text behind the part
and more in front of it.  In front of a fence, or if nothing more stands behind it, **the part is read
in the same way** (`appended_parallel`): its nodes are the same, only that they stand further on.
-/

namespace Chainlet

open Production

/-! ## Trees further on in a source -/

mutual

/-- The tree that stands some bytes further on. -/
def Tree.shift (k : Nat) : Tree → Tree
  | .node rule text start ts => .node rule text (start.map (· + k)) (shiftAll k ts)

def shiftAll (k : Nat) : List Tree → List Tree
  | [] => []
  | t :: ts => t.shift k :: shiftAll k ts

end

theorem shiftAll_eq_map (k : Nat) (ts : List Tree) : shiftAll k ts = ts.map (Tree.shift k) := by
  induction ts with
  | nil => rfl
  | cons t ts ih => rw [shiftAll, ih, List.map_cons]

@[simp] theorem Tree.shift_node (k : Nat) (rule : Rule) (text : String) (start : Option Nat)
    (ts : List Tree) : (Tree.node rule text start ts).shift k =
      .node rule text (start.map (· + k)) (ts.map (Tree.shift k)) := by
  rw [Tree.shift, shiftAll_eq_map]

@[simp] theorem Tree.shift_text (k : Nat) (t : Tree) : (t.shift k).text = t.text := by
  cases t
  rfl

@[simp] theorem Tree.shift_start (k : Nat) (t : Tree) :
    (t.shift k).start = t.start.map (· + k) := by
  cases t
  rfl

theorem Tree.shift_zero (t : Tree) : t.shift 0 = t := by
  induction t using Tree.induction with
  | h rule text start ts ih =>
    rw [shift_node, List.map_congr_left ih, List.map_id']
    cases start <;> rfl

/-- The same children, one by one. -/
theorem map_shift_of_forall₂ {k : Nat} {ts ts' : List Tree}
    (h : List.Forall₂ (fun t t' => t' = t.shift k) ts ts') : ts' = ts.map (Tree.shift k) := by
  induction h with
  | nil => rfl
  | cons hfirst _ ih => rw [hfirst, ih, List.map_cons]

/-! ## Words in front of a fence -/

variable {more text : List Char} {d k : Nat}

/-- A text with nothing more behind it, or with a fence. -/
def Bounded (more : List Char) (d : Nat) (text : List Char) : Prop :=
  more = [] ∨ fenced .text d text = true

theorem Bounded.quiet {w rest : List Char} (h : Bounded more d (w ++ rest)) (hw : Quiet w) :
    Bounded more d rest :=
  h.imp_right fun hfence => by rwa [hw] at hfence

theorem Lexeme.Local.bounded {l : Lexeme} (hl : l.Local) (h : Bounded more d text) :
    l (text ++ more) = (l text).map fun (word, rest) => (word, rest ++ more) := by
  obtain rfl | hfence := h
  · rw [List.append_nil]
    cases l text <;> simp
  · exact hl more (any_isFence hfence)

theorem string_bounded (h : Bounded more d text) : Lexeme.string (text ++ more)
    = (Lexeme.string text).map fun (word, rest) => (word, rest ++ more) := by
  obtain rfl | hfence := h
  · rw [List.append_nil]
    cases Lexeme.string text <;> simp
  · cases text with
    | nil => cases hfence
    | cons c cs =>
      by_cases hc : c = '"'
      · subst hc
        obtain ⟨word, rest, hread, hread'⟩ := closingQuote_of_fenced (z := more)
          (show fenced .string d cs = true from hfence)
        have hwhole : Lexeme.string ('"' :: cs) = some ('"' :: word, rest) :=
          Lexeme.glue_eq_some.2 ⟨['"'], cs, word, Lexeme.exactly_eq_some.2 ⟨rfl, rfl⟩, hread, rfl⟩
        have hwhole' : Lexeme.string ('"' :: cs ++ more) = some ('"' :: word, rest ++ more) :=
          Lexeme.glue_eq_some.2
            ⟨['"'], cs ++ more, word, Lexeme.exactly_eq_some.2 ⟨rfl, rfl⟩, hread', rfl⟩
        rw [hwhole, hwhole']
        rfl
      · have hnone : ∀ cs, Lexeme.string (c :: cs) = none := by
          intro cs
          have hquote : '"' ≠ c := fun heq => hc heq.symm
          simp [Lexeme.string, Lexeme.glue, Lexeme.exactly, hquote]
        rw [List.cons_append, hnone, hnone]
        rfl

theorem IsWord.bounded {rule : Rule} {l : Lexeme} (hl : IsWord rule l) (h : Bounded more d text) :
    l (text ++ more) = (l text).map fun (word, rest) => (word, rest ++ more) := by
  by_cases hrule : rule = .stringLiteral
  · subst hrule
    cases hl
    exact string_bounded h
  · exact (hl.local hrule).bounded h

theorem IsWord.quiet {rule : Rule} {l : Lexeme} (hl : IsWord rule l) {word rest : List Char}
    (hread : l text = some (word, rest)) : Quiet word := by
  obtain ⟨-, form, hform, hforms⟩ := hl.forms
  refine rule.word_quiet hform ?_ (hforms hread)
  rintro rfl
  cases hl

theorem IsSign.quiet {l : Lexeme} (hl : IsSign l) {word rest : List Char}
    (hread : l text = some (word, rest)) : Quiet word := by
  have honly : ∃ w, Only l w ∧ w.all isPlain = true := by
    cases hl
    case equals => exact ⟨['='], only_equals, by decide⟩
    all_goals exact ⟨_, only_exactly _, by decide⟩
  obtain ⟨w, hw, hplain⟩ := honly
  rw [(hw hread).1]
  exact quiet_of_plain hplain

/-! ## Cursors in the longer source -/

/-- Where a reading of a part stands on its own, and where in the longer source. -/
structure Further (more : List Char) (k : Nat) (c c' : Cursor) : Prop where
  rest : c'.rest = c.rest ++ more
  offset : c'.offset = c.offset + k

theorem Further.after {c c' : Cursor} (h : Further more k c c') (word rest : List Char) :
    Further more k (c.after word rest) (c'.after word (rest ++ more)) := by
  refine ⟨rfl, ?_⟩
  change c'.offset + _ = c.offset + _ + k
  rw [h.offset, Nat.add_right_comm]

/-- A word that is the same in the longer source leaves the two readings in step. -/
theorem Further.sign {l : Lexeme} {c c' : Cursor} (h : Further more k c c')
    (hread : l (c.rest ++ more) = (l c.rest).map fun (word, rest) => (word, rest ++ more)) :
    Option.Rel (Further more k) (Production.sign l c) (Production.sign l c') := by
  rw [Production.sign, Production.sign, h.rest, hread]
  cases l c.rest with
  | none => exact .none
  | some r => exact .some (h.after r.1 r.2)

theorem Further.leaf {rule : Rule} {l : Lexeme} {c c' : Cursor} (h : Further more k c c')
    (hread : l (c.rest ++ more) = (l c.rest).map fun (word, rest) => (word, rest ++ more)) :
    Option.Rel (fun r r' => r'.1 = r.1.shift k ∧ Further more k r.2 r'.2) (leaf rule l c)
      (leaf rule l c') := by
  rw [Production.leaf, Production.leaf, h.rest, hread]
  cases l c.rest with
  | none => exact .none
  | some r =>
    refine .some ⟨?_, h.after r.1 r.2⟩
    rw [Tree.shift_node, h.offset]
    rfl

theorem Further.textTo {c c' e e' : Cursor} (h : Further more k c c') (he : Further more k e e')
    (hreaches : c.Reaches e) (hreaches' : c'.Reaches e') : c'.textTo e' = c.textTo e := by
  obtain ⟨word, hword, hoffset⟩ := hreaches
  obtain ⟨word', hword', hoffset'⟩ := hreaches'
  have hsame : word' = word := by
    rw [h.rest, he.rest, hword, List.append_assoc] at hword'
    exact (List.append_cancel_right hword').symm
  have htext : ∀ {c e : Cursor}, c.rest = word ++ e.rest →
      e.offset = c.offset + byteLength word → c.textTo e = String.ofList word := by
    intro c e hword hoffset
    rw [Cursor.textTo, hoffset, Nat.add_sub_cancel_left, hword, appendBytes_byteLength]
    simp
  rw [htext hword hoffset, htext (by rw [hword', hsame]) (by rw [hoffset', hsame])]

/-- The node of corresponding children between corresponding cursors. -/
theorem Further.branch {rule : Rule} {c c' e e' : Cursor} {ts ts' : List Tree}
    (h : Further more k c c') (he : Further more k e e') (hreaches : c.Reaches e)
    (hreaches' : c'.Reaches e') (hall : List.Forall₂ (fun t t' => t' = t.shift k) ts ts') :
    branch rule c' e' ts' = (branch rule c e ts).shift k := by
  rw [Production.branch, Production.branch, Tree.shift_node,
    h.textTo he hreaches hreaches', h.offset, map_shift_of_forall₂ hall]
  rfl

/-- The same with a fence ahead, if more text stands behind the part. -/
structure Appended (more : List Char) (k : Nat) (d : Nat) (c c' : Cursor) : Prop
    extends Further more k c c' where
  bounded : Bounded more d c.rest

/-- A sign that changes the number of open brackets, or does not. -/
theorem sign_appended {l : Lexeme} {d e : Nat} {c c' : Cursor} (h : Appended more k d c c')
    (hread : l (c.rest ++ more) = (l c.rest).map fun (word, rest) => (word, rest ++ more))
    (hbounded : ∀ word rest, l c.rest = some (word, rest) → Bounded more e rest) :
    Option.Rel (Appended more k e) (sign l c) (sign l c') :=
  rel_imp (h.sign hread) fun _ _ hsign _ hfurther => by
    obtain ⟨r, hr, rfl⟩ := Option.map_eq_some_iff.1 hsign
    exact ⟨hfurther, hbounded r.1 r.2 hr⟩

/-- A fixed sign, behind which as many brackets are open as a scan over it says. -/
theorem exactly_appended {w : List Char} {d e : Nat} {c c' : Cursor} (h : Appended more k d c c')
    (hlocal : Lexeme.Local (.exactly w))
    (hscan : ∀ rest, fenced .text d (w ++ rest) = true → fenced .text e rest = true) :
    Option.Rel (Appended more k e) (sign (.exactly w) c) (sign (.exactly w) c') := by
  refine sign_appended h (hlocal.bounded h.bounded) fun word rest hread => ?_
  have hbounded := h.bounded
  rw [(Lexeme.exactly_eq_some.1 hread).2] at hbounded
  exact hbounded.imp_right (hscan rest)

/-- **A part is read in the longer source as it is on its own.** -/
theorem appended_parallel (more : List Char) (k : Nat) :
    Parallel (Appended more k) fun t t' => t' = t.shift k where
  skip {d c c'} h := by
    obtain ⟨hskip, hrest⟩ : (c.rest ++ more).takeWhile isBlank = c.rest.takeWhile isBlank ∧
        (c.rest ++ more).dropWhile isBlank = c.rest.dropWhile isBlank ++ more := by
      obtain rfl | hfence := h.bounded
      · rw [List.append_nil, List.append_nil]
        exact ⟨rfl, rfl⟩
      · exact Lexeme.takeWhile_append_of_any (Lexeme.of_isFence (by decide)) (any_isFence hfence)
          more
    have hbounded := h.bounded
    rw [← List.takeWhile_append_dropWhile (p := isBlank) (l := c.rest)] at hbounded
    rw [Cursor.skipBlank, Cursor.skipBlank, h.rest, hskip, hrest]
    exact ⟨h.after _ _, hbounded.quiet (blanks_quiet List.all_takeWhile)⟩
  word {rule l d c c'} hl h :=
    rel_imp (h.leaf (hl.bounded h.bounded)) fun _ _ hleaf _ hrel => by
      obtain ⟨r, hread, rfl⟩ := Option.map_eq_some_iff.1 hleaf
      have hbounded := h.bounded
      rw [hl.forms.1 _ _ _ hread] at hbounded
      exact ⟨hrel.1, hrel.2, hbounded.quiet (hl.quiet hread)⟩
  sign {l d c c'} hl h := sign_appended h (hl.local.bounded h.bounded) fun word rest hread => by
    have hbounded := h.bounded
    obtain ⟨w, honly⟩ : ∃ w, Only l w := by
      cases hl
      case equals => exact ⟨_, only_equals⟩
      all_goals exact ⟨_, only_exactly _⟩
    rw [(honly hread).2, ← (honly hread).1] at hbounded
    exact hbounded.quiet (hl.quiet hread)
  opening {w d c c'} hw h := by
    have hlocal : Lexeme.Local (.exactly w) := by
      cases hw <;> exact Lexeme.exactly_local (by decide)
    refine exactly_appended h hlocal fun rest hfence => ?_
    cases hw <;> exact hfence
  closing {w d c c'} hw h := by
    have hlocal : Lexeme.Local (.exactly w) := by
      cases hw <;> exact Lexeme.exactly_single_local _
    refine exactly_appended h hlocal fun rest hfence => ?_
    cases hw <;> exact hfence
  semicolon h := exactly_appended h (Lexeme.exactly_single_local ';') fun _ hfence => hfence
  branch _ h he hreaches hreaches' hall := h.branch he.toFurther hreaches hreaches' hall
  absent {rule d c c'} h := by
    rw [Production.absent, Production.absent, Tree.shift_node, h.offset]
    rfl
  optional {t t'} h := by
    rw [h, Tree.shift_node, Tree.shift_text, Tree.shift_start]
    rfl

end Chainlet
