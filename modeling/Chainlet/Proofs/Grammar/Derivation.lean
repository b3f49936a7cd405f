import Chainlet.Grammar.Production
import Chainlet.Proofs.Grammar.Word

/-!
# Proofs/Grammar/Derivation — how the nodes of a tree cover the source

`Derives c t d` says that a node was read from one cursor to another: a leaf is a word of its form,
and any other node has the text between the two cursors, the layout of its rule, and its children in
order with nothing but blanks and separators around them (`Fills`), between brackets if its rule has
some.  What is true of every parse tree is proved on derivations.

The second half gives one lemma for each way of putting productions together: if the parts read
derivations then so does the whole.
-/

namespace Chainlet

/-! ## Signs -/

/-- The words that may stand between the children of a node. -/
def Rule.separators : Rule → List (List Char)
  | .itemElement | .block => [[';']]
  | .assignment | .binding | .field => [['=']]
  | .callExpression => [['&']]
  | .path => [['.']]
  | .typeAscription => [[':']]
  | .generics => [['<'], [','], ['>']]
  | .parameters | .arguments | .arrayLiteral | .objectLiteral | .tupleLiteral => [[',']]
  | _ => []

/-- The brackets around the children of a node. -/
def Rule.brackets? : Rule → Option (List Char × List Char)
  | .arrayLiteral => some (['$', '['], [']'])
  | .objectLiteral => some (['$', '{'], ['}'])
  | .tupleLiteral => some (['$', '('], [')'])
  | .block => some (['{'], ['}'])
  | .groupOperand => some (['('], [')'])
  | _ => none

/-- The rules of which a node may stand for nothing. -/
def Rule.mayBeAbsent : Rule → Bool
  | .optional | .parameters | .arguments => true
  | _ => false

/-! ## Derivations -/

mutual

/-- A node that was read from one cursor to another. -/
inductive Derives : Cursor → Tree → Cursor → Prop where
  | leaf {rule : Rule} {form : List Char → Bool} {c : Cursor} {word rest : List Char}
      (hform : rule.form? = some form) (hword : form word = true) (htext : c.rest = word ++ rest) :
      Derives c (.node rule (String.ofList word) (some c.offset) []) (c.after word rest)
  | branch {rule : Rule} {c d : Cursor} {ts : List Tree} (hform : rule.form? = none)
      (hbrackets : rule.brackets? = none) (hlayout : rule.layout.admits ts = true)
      (hinside : Fills rule c ts d) : Derives c (Production.branch rule c d ts) d
  | bracketed {rule : Rule} {opening closing inside rest : List Char} {c d : Cursor}
      {ts : List Tree} (hbrackets : rule.brackets? = some (opening, closing))
      (hlayout : rule.layout.admits ts = true) (hopening : c.rest = opening ++ inside)
      (hinside : Fills rule (c.after opening inside) ts d) (hclosing : d.rest = closing ++ rest) :
      Derives c (Production.branch rule c (d.after closing rest) ts) (d.after closing rest)

/-- The children of a node of a rule, from one cursor to another. -/
inductive Fills : Rule → Cursor → List Tree → Cursor → Prop where
  | done {rule : Rule} {c : Cursor} : Fills rule c [] c
  | blank {rule : Rule} {c d : Cursor} {ts : List Tree} (hmore : Fills rule c.skipBlank ts d) :
      Fills rule c ts d
  | sign {rule : Rule} {c d : Cursor} {word rest : List Char} {ts : List Tree}
      (hword : word ∈ rule.separators) (htext : c.rest = word ++ rest)
      (hmore : Fills rule (c.after word rest) ts d) : Fills rule c ts d
  | child {rule : Rule} {c d e : Cursor} {t : Tree} {ts : List Tree} (hchild : Derives c t d)
      (hmore : Fills rule d ts e) : Fills rule c (t :: ts) e
  | absent {rule missing : Rule} {c d : Cursor} {ts : List Tree}
      (hmissing : missing.mayBeAbsent = true) (hmore : Fills rule c ts d) :
      Fills rule c (Production.absent missing c :: ts) d

end

theorem Fills.append {rule : Rule} {c d e : Cursor} {ts us : List Tree} :
    Fills rule c ts d → Fills rule d us e → Fills rule c (ts ++ us) e
  | .done, hmore => hmore
  | .blank h, hmore => .blank (h.append hmore)
  | .sign hword htext h, hmore => .sign hword htext (h.append hmore)
  | .child hchild h, hmore => .child hchild (h.append hmore)
  | .absent hmissing h, hmore => .absent hmissing (h.append hmore)

/-- A single child. -/
theorem Derives.fills {rule : Rule} {c d : Cursor} {t : Tree} (h : Derives c t d) :
    Fills rule c [t] d := .child h .done

/-- **A node starts where it was read from.** -/
theorem Derives.start_eq {c d : Cursor} {t : Tree} (h : Derives c t d) : t.start = some c.offset := by
  cases h <;> rfl

/-- **The text of a node is what was read.** -/
theorem Derives.text_eq {c d : Cursor} {t : Tree} (h : Derives c t d) : t.text = c.textTo d := by
  cases h with
  | leaf _ _ htext => exact (Cursor.textTo_after htext).symm
  | branch => rfl
  | bracketed => rfl

/-! ## Every node conforms -/

theorem Tree.conforms_node {rule : Rule} {text : String} {start : Option Nat} {ts : List Tree}
    (hlayout : rule.layout.admits ts = true) (hform : rule.form? = none)
    (hall : ts.all Tree.conforms = true) : (Tree.node rule text start ts).conforms = true := by
  refine conforms_iff.2 ⟨hlayout, ?_, List.all_eq_true.1 hall⟩
  rw [spelt, Tree.rule, hform]
  rfl

theorem Production.absent_conforms {missing : Rule} (h : missing.mayBeAbsent = true) (c : Cursor) :
    (absent missing c).conforms = true := by
  cases missing <;> first | rfl | cases h

mutual

theorem Derives.conforms {c d : Cursor} {t : Tree} : Derives c t d → t.conforms = true
  | @Derives.leaf rule _ _ _ _ hform hword _ => by
    have hleaf : rule.layout = .leaf := rule.layout_eq_leaf_iff.2 (by rw [hform]; rfl)
    refine Tree.conforms_iff.2 ⟨by rw [hleaf]; rfl, ?_, fun _ h => nomatch h⟩
    rw [Tree.spelt, Tree.rule, hform, Option.all_some, Tree.text, String.toList_ofList, hword]
  | .branch hform _ hlayout hinside => Tree.conforms_node hlayout hform hinside.conforms
  | @Derives.bracketed rule _ _ _ _ _ _ _ hbrackets hlayout _ hinside _ =>
    have hform : rule.form? = none := by cases rule <;> first | rfl | cases hbrackets
    Tree.conforms_node hlayout hform hinside.conforms

theorem Fills.conforms {rule : Rule} {c d : Cursor} {ts : List Tree} :
    Fills rule c ts d → ts.all Tree.conforms = true
  | .done => rfl
  | .blank h => h.conforms
  | .sign _ _ h => h.conforms
  | .child hchild h => by rw [List.all_cons, hchild.conforms, h.conforms]; rfl
  | .absent hmissing h => by
    rw [List.all_cons, Production.absent_conforms hmissing, h.conforms]
    rfl

end

/-! ## Every node has a place -/

/-- Whether every node has a start in the source. -/
def Tree.isPlaced (t : Tree) : Bool := t.every fun u => u.start.isSome

@[simp] theorem Tree.isPlaced_node (rule : Rule) (text : String) (start : Option Nat)
    (ts : List Tree) :
    (Tree.node rule text start ts).isPlaced = (start.isSome && ts.all isPlaced) := by
  rw [isPlaced, every, everyAll_eq_all]
  rfl

mutual

theorem Derives.placed {c d : Cursor} {t : Tree} : Derives c t d → t.isPlaced = true
  | .leaf _ _ _ => Tree.isPlaced_node ..
  | .branch _ _ _ hinside => (Tree.isPlaced_node ..).trans hinside.placed
  | .bracketed _ _ _ hinside _ => (Tree.isPlaced_node ..).trans hinside.placed

theorem Fills.placed {rule : Rule} {c d : Cursor} {ts : List Tree} :
    Fills rule c ts d → ts.all Tree.isPlaced = true
  | .done => rfl
  | .blank h => h.placed
  | .sign _ _ h => h.placed
  | .child hchild h => by rw [List.all_cons, hchild.placed, h.placed]; rfl
  | .absent _ h => (List.all_cons ..).trans h.placed

end

/-! ## Signs that are read -/

namespace Production

/-- A lexeme that reads one word and nothing else. -/
def Only (l : Lexeme) (word : List Char) : Prop :=
  ∀ ⦃text word' rest : List Char⦄, l text = some (word', rest) → word' = word ∧ text = word ++ rest

theorem only_exactly (word : List Char) : Only (.exactly word) word :=
  fun _ _ _ h => Lexeme.exactly_eq_some.1 h

theorem only_equals : Only .equals ['='] :=
  fun _ _ _ h => Lexeme.exactly_eq_some.1 (Lexeme.checked_eq_some.1 h).1

theorem sign_eq_some {l : Lexeme} {c d : Cursor} :
    sign l c = some d ↔ ∃ word rest, l c.rest = some (word, rest) ∧ d = c.after word rest := by
  rw [sign, Option.map_eq_some_iff]
  constructor
  · rintro ⟨⟨word, rest⟩, h, rfl⟩
    exact ⟨word, rest, h, rfl⟩
  · rintro ⟨word, rest, h, rfl⟩
    exact ⟨(word, rest), h, rfl⟩

theorem Only.sign {l : Lexeme} {word : List Char} (hl : Only l word) {c d : Cursor}
    (h : sign l c = some d) : ∃ rest, c.rest = word ++ rest ∧ d = c.after word rest := by
  obtain ⟨_, rest, hread, rfl⟩ := sign_eq_some.1 h
  obtain ⟨rfl, htext⟩ := hl hread
  exact ⟨rest, htext, rfl⟩

/-- A separator in front of what fills a node. -/
theorem Only.fills {l : Lexeme} {word : List Char} (hl : Only l word) {rule : Rule}
    (hword : word ∈ rule.separators) {c d e : Cursor} {ts : List Tree}
    (h : Production.sign l c = some d) (hmore : Fills rule d ts e) : Fills rule c ts e := by
  obtain ⟨rest, htext, rfl⟩ := hl.sign h
  exact .sign hword htext hmore

/-! ## Productions that read derivations -/

/-- A production whose nodes are derived and may stand at a place. -/
def Reads (p : Production) (slot : Slot) : Prop :=
  ∀ ⦃c : Cursor⦄ ⦃t : Tree⦄ ⦃d : Cursor⦄, p c = some (t, d) → Derives c t d ∧ slot.admits t = true

variable {p q : Production} {slot : Slot} {rule parent : Rule} {n : Nat} {c d : Cursor}

theorem Reads.category (h : p.Reads (.rule rule)) : p.Reads (.category rule.category) :=
  fun c t d hread => ⟨(h hread).1, by
    have hrule : t.rule = rule := by simpa [Slot.admits] using (h hread).2
    rw [Slot.admits, hrule, beq_self_eq_true]⟩

theorem leaf_reads {l : Lexeme} {form : List Char → Bool} (hl : l.Forms form) (hsplit : l.Splits)
    (hform : rule.form? = some form) : (leaf rule l).Reads (.rule rule) := by
  intro c t d h
  obtain ⟨⟨word, rest⟩, hread, heq⟩ := Option.map_eq_some_iff.1 h
  cases heq
  exact ⟨.leaf hform (hl hread) (hsplit _ _ _ hread), beq_self_eq_true rule⟩

/-- A node without brackets of its own. -/
theorem branch_reads {ts : List Tree} (hform : rule.form? = none) (hbrackets : rule.brackets? = none)
    (hlayout : rule.layout.admits ts = true) (hinside : Fills rule c ts d) :
    Derives c (branch rule c d ts) d ∧ (Slot.rule rule).admits (branch rule c d ts) = true :=
  ⟨.branch hform hbrackets hlayout hinside, beq_self_eq_true rule⟩

theorem wrap_reads (hp : p.Reads slot) (hlayout : rule.layout = .fixed [slot])
    (hbrackets : rule.brackets? = none) : (wrap rule p).Reads (.rule rule) := by
  intro c t d h
  obtain ⟨⟨child, d⟩, hread, h⟩ := Option.bind_eq_some_iff.1 h
  cases h
  have hform : rule.form? = none := by
    rw [← Option.not_isSome_iff_eq_none, ← Rule.layout_eq_leaf_iff, hlayout]
    exact (nomatch ·)
  refine branch_reads hform hbrackets ?_ (hp hread).1.fills
  rw [hlayout, Layout.admits, Slot.admitsEach, Slot.admitsEach, (hp hread).2]
  rfl

theorem either_reads (hp : p.Reads slot) (hq : q.Reads slot) : (either p q).Reads slot := by
  intro c t d h
  rw [either] at h
  cases hread : p c with
  | none => exact hq (by simpa [hread] using h)
  | some _ => exact hp (by simpa [hread] using h)

theorem firstOf_reads {ps : List Production} (h : ∀ p ∈ ps, Reads p slot) :
    (firstOf ps).Reads slot := by
  intro c t d hread
  obtain ⟨p, hp, hread⟩ := List.exists_of_findSome?_eq_some hread
  exact h p hp hread

/-! ## Parts that may be missing -/

theorem optionalPart_fills (hp : p.Reads (.rule rule)) {t : Tree} (h : optionalPart p c = (t, d)) :
    Fills parent c [t] d ∧ (Slot.optional rule).admits t = true := by
  rw [optionalPart] at h
  split at h
  · next child d' hread =>
    cases h
    obtain ⟨hderives, hrule⟩ := hp hread
    have hbranch : Tree.node .optional child.text child.start [child]
        = branch .optional c.skipBlank d [child] := by
      rw [hderives.text_eq, hderives.start_eq]
      rfl
    have hnode : Derives c.skipBlank (branch .optional c.skipBlank d [child]) d :=
      .branch rfl rfl rfl hderives.fills
    rw [hbranch]
    refine ⟨.blank hnode.fills, ?_⟩
    have hchild : child.rule = rule := beq_iff_eq.1 hrule
    rw [branch, Slot.admits, Tree.children, List.all_cons, hchild]
    simp [Tree.rule]
  · cases h
    exact ⟨.absent rfl .done, rfl⟩

/-! ## Repetition -/

theorem repeated_fills {step : Cursor → Option (Tree × Cursor)}
    (hstep : ∀ ⦃c t d⦄, step c = some (t, d) → Fills rule c [t] d ∧ slot.admits t = true)
    {ts : List Tree} (h : repeated step n c = (ts, d)) :
    Fills rule c ts d ∧ ts.all slot.admits = true := by
  induction n generalizing c ts with
  | zero => cases h; exact ⟨.done, rfl⟩
  | succ n ih =>
    rw [repeated] at h
    split at h
    · cases h; exact ⟨.done, rfl⟩
    · next t d' hread =>
      obtain ⟨hfirst, hslot⟩ := hstep hread
      generalize hrest : repeated step n d' = rest at h
      obtain ⟨us, e⟩ := rest
      cases h
      obtain ⟨hmore, hall⟩ := ih hrest
      exact ⟨hfirst.append hmore, by rw [List.all_cons, hslot, hall]; rfl⟩

/-- A list that is not empty starts behind the blanks. -/
theorem separated_fills (hp : p.Reads slot) (hcomma : [','] ∈ rule.separators) {ts : List Tree}
    (h : separated n p c = (ts, d)) :
    ts.all slot.admits = true ∧ (ts = [] ∧ d = c ∨ Fills rule c.skipBlank ts d) := by
  rw [separated] at h
  split at h
  · cases h; exact ⟨rfl, .inl ⟨rfl, rfl⟩⟩
  · next t d' hread =>
    have hstep : ∀ ⦃c t d⦄, (do p (← sign comma c.skipBlank).skipBlank) = some (t, d) →
        Fills rule c [t] d ∧ slot.admits t = true := by
      intro c t d h
      obtain ⟨e, hsign, h⟩ := Option.bind_eq_some_iff.1 h
      obtain ⟨hderives, hslot⟩ := hp h
      exact ⟨.blank ((only_exactly [',']).fills hcomma hsign (.blank hderives.fills)), hslot⟩
    obtain ⟨hfirst, hslot⟩ := hp hread
    generalize hrest : repeated _ n d' = rest at h
    obtain ⟨us, e⟩ := rest
    obtain ⟨hmore, hall⟩ := repeated_fills hstep hrest
    cases h
    exact ⟨by rw [List.all_cons, hslot, hall]; rfl, .inr (hfirst.fills.append hmore)⟩

theorem commaList_fills (hp : p.Reads slot) (hlayout : rule.layout = .many slot)
    (hform : rule.form? = none) (hbrackets : rule.brackets? = none)
    (hcomma : [','] ∈ rule.separators) (hmissing : rule.mayBeAbsent = true) {t : Tree}
    (h : commaList n rule p c = (t, d)) :
    Fills parent c [t] d ∧ (Slot.rule rule).admits t = true := by
  rw [commaList] at h
  split at h
  · cases h
    exact ⟨.absent hmissing .done, beq_self_eq_true rule⟩
  · next ts d' hne hlist =>
    cases h
    obtain ⟨hall, ⟨rfl, -⟩ | hinside⟩ := separated_fills hp hcomma hlist
    · exact absurd rfl hne
    · obtain ⟨hderives, hrule⟩ :=
        branch_reads hform hbrackets (by rw [hlayout]; exact hall) hinside
      exact ⟨.blank hderives.fills, hrule⟩

theorem bracketed_reads {opening closing : List Char} (hp : p.Reads slot)
    (hlayout : rule.layout = .many slot) (hbrackets : rule.brackets? = some (opening, closing))
    (hcomma : [','] ∈ rule.separators) :
    (bracketed n rule opening closing p).Reads (.rule rule) := by
  intro c t d h
  obtain ⟨d₁, hopen, h⟩ := Option.bind_eq_some_iff.1 h
  obtain ⟨inside, hopening, rfl⟩ := (only_exactly opening).sign hopen
  generalize hlist : separated n p (c.after opening inside) = list at h
  obtain ⟨ts, e⟩ := list
  obtain ⟨g, hclose, h⟩ := Option.bind_eq_some_iff.1 h
  obtain ⟨rest, hclosing, rfl⟩ := (only_exactly closing).sign hclose
  cases h
  obtain ⟨hall, hinside⟩ := separated_fills hp hcomma hlist
  have hfills : Fills rule (c.after opening inside) ts e := by
    obtain ⟨rfl, rfl⟩ | hinside := hinside
    · exact .done
    · exact .blank hinside
  have htail : Fills rule e [] (if ts.isEmpty then e else (sign comma e.skipBlank).getD e) := by
    split
    · exact .done
    · cases hsign : sign comma e.skipBlank with
      | none => exact .done
      | some f => exact .blank ((only_exactly [',']).fills hcomma hsign .done)
  have hwhole := (hfills.append htail).append (.blank .done)
  rw [List.append_nil, List.append_nil] at hwhole
  exact ⟨.bracketed hbrackets (by rw [hlayout]; exact hall) hopening hwhole hclosing,
    beq_self_eq_true rule⟩

end Production

end Chainlet
