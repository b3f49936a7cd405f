import Chainlet.Proofs.Grammar.Elements
import Chainlet.Proofs.Grammar.Nested
import Chainlet.Proofs.Parallel.Bound

/-!
# Proofs/Grammar/Absorbs — calls in front of something, and productions that read none

A node is innermost (`Tree.Innermost`) if no call with arguments in it is followed by an operator or by
another element of its list, and if, being a call itself, it ends where nothing continues it
(`Cursor.Closes`).  A production absorbs (`Production.Absorbs`) if all nodes of its trees are innermost.
The combinators pass this on; **in a list a call with arguments is the last element** if no comma can
continue a list behind one (`Production.separated_alone`).
-/

namespace Chainlet

open Production

/-! ## Nodes that something follows -/

namespace Tree

/-- Whether a node is a call with arguments. -/
def takesArguments : Tree → Bool
  | node .callExpression _ _ [node _ _ _ [_, node _ _ _ (_ :: _)]] => true
  | _ => false

/-- What stands for itself in a list: the value of a field, or the whole element. -/
def entry : Tree → Tree
  | node .field _ _ [_, value] => value
  | t => t

/-- The expressions in a node that an operator follows, or a comma with another element. -/
def followed : Tree → List Tree
  | node .binaryExpression _ _ ts => ts.take 1
  | node .arguments _ _ ts | node .arrayLiteral _ _ ts | node .objectLiteral _ _ ts
  | node .tupleLiteral _ _ ts => ts.dropLast.map entry
  | _ => []

end Tree

/-- Whether nothing continues what was read up to a cursor: neither an operator with an operand nor a
comma with an expression. -/
structure Cursor.Closes (e : Cursor) : Prop where
  operator : Grammar.link e.rest.length Grammar.expression e = none
  comma : commaStep Grammar.expression e = none

/-- Where a call ends: nothing continues its arguments, or no expression starts behind the callee. -/
def Tree.EndsAt (u : Tree) (e : Cursor) : Prop :=
  u.span.stop = e.offset ∧
    if u.takesArguments then e.Closes else Grammar.expression e.skipBlank = none

/-- Whether no call with arguments in a node is followed by anything, and a node that is a call itself
takes all it can of the source behind a cursor. -/
structure Tree.Innermost (root : Cursor) (u : Tree) : Prop where
  alone : ∀ t ∈ u.followed, t.takesArguments = false
  whole : u.rule = .callExpression → ∃ e, root.Reaches e ∧ u.EndsAt e

/-- Whether every node of a tree is innermost. -/
def Tree.AllInnermost (root : Cursor) (t : Tree) : Prop := ∀ u ∈ t.nodes, u.Innermost root

/-- Whether nodes of a rule have something that may follow a call, or are calls. -/
def Rule.isOpen : Rule → Bool
  | .binaryExpression | .callExpression | .arguments | .arrayLiteral | .objectLiteral
  | .tupleLiteral => true
  | _ => false

section Nodes

variable {root : Cursor} {rule : Rule} {text : String} {start : Option Nat} {ts : List Tree}

theorem Tree.innermost_of_not_isOpen (h : rule.isOpen = false) :
    (Tree.node rule text start ts).Innermost root := by
  cases rule
  case binaryExpression | callExpression | arguments | arrayLiteral | objectLiteral | tupleLiteral =>
    cases h
  all_goals exact ⟨List.forall_mem_nil _, nofun⟩

/-- A node that is no call is innermost if no call with arguments is followed in it. -/
theorem Tree.innermost_of_alone (hrule : rule ≠ .callExpression)
    (halone : ∀ t ∈ (node rule text start ts).followed, t.takesArguments = false) :
    (node rule text start ts).Innermost root :=
  ⟨halone, fun hcall => absurd hcall hrule⟩

theorem Tree.allInnermost_node (h : (Tree.node rule text start ts).Innermost root)
    (hts : ∀ t ∈ ts, t.AllInnermost root) : (Tree.node rule text start ts).AllInnermost root :=
  Tree.forall_mem_nodes.2 ⟨h, hts⟩

end Nodes

/-! ## Cursors behind the start -/

/-- A cursor behind a root, with fewer characters left than a bound. -/
structure Cursor.Below (root : Cursor) (k : Nat) (c : Cursor) : Prop where
  reaches : root.Reaches c
  length_lt : c.rest.length < k

namespace Cursor.Below

variable {root c d : Cursor} {k : Nat}

theorem step (h : root.Below k c) (hreach : c.Reaches d) : root.Below k d :=
  ⟨h.reaches.trans hreach, Nat.lt_of_le_of_lt hreach.length_le h.length_lt⟩

theorem skip (h : root.Below k c) : root.Below k c.skipBlank := h.step c.reaches_skipBlank

theorem past (h : root.Below (k + 1) c) (hpast : c.Past d) : root.Below k d :=
  ⟨h.reaches.trans hpast.1, Nat.lt_of_lt_of_le hpast.2 (Nat.le_of_lt_succ h.length_lt)⟩

theorem succ (h : root.Below k c) : root.Below (k + 1) c := ⟨h.reaches, Nat.lt_succ_of_lt h.length_lt⟩

end Cursor.Below

namespace Production

theorem Reads.past {p : Production} {slot : Slot} (hp : p.Reads slot) (hsolid : slot.isSolid = true)
    {c d : Cursor} {t : Tree} (h : p c = some (t, d)) : c.Past d :=
  ⟨(hp h).1.reaches, hp.length_lt hsolid h⟩

theorem commaStep_past {p : Production} {slot : Slot} (hp : p.Reads slot) (hsolid : slot.isSolid = true)
    {c d : Cursor} {t : Tree} (h : commaStep p c = some (t, d)) : c.Past d := by
  obtain ⟨e, hsign, hread⟩ := Option.bind_eq_some_iff.1 h
  exact ((c.reaches_skipBlank.past (sign_past (only_exactly [',']) (List.cons_ne_nil _ _) hsign)).reaches
    e.reaches_skipBlank).trans (hp.past hsolid hread)

/-- A production whose trees are innermost, behind a root and in rests shorter than a bound. -/
def Absorbs (root : Cursor) (k : Nat) (p : Production) : Prop :=
  ∀ ⦃c : Cursor⦄ ⦃t : Tree⦄ ⦃d : Cursor⦄, root.Below k c → p c = some (t, d) → t.AllInnermost root

variable {root : Cursor} {k : Nat} {p q : Production} {rule : Rule} {n : Nat} {c d e : Cursor} {t : Tree}
  {ts : List Tree}

theorem branch_innermost (hrule : rule.isOpen = false) (hts : ∀ t ∈ ts, t.AllInnermost root) :
    (branch rule c d ts).AllInnermost root :=
  Tree.allInnermost_node (Tree.innermost_of_not_isOpen hrule) hts

theorem leaf_absorbs {l : Lexeme} (hrule : rule.isOpen = false) : (leaf rule l).Absorbs root k := by
  intro c t d _ h
  obtain ⟨⟨word, rest⟩, -, heq⟩ := Option.map_eq_some_iff.1 h
  cases heq
  exact Tree.allInnermost_node (Tree.innermost_of_not_isOpen hrule) (List.forall_mem_nil _)

theorem wrap_absorbs (hp : p.Absorbs root k) (hrule : rule.isOpen = false) :
    (wrap rule p).Absorbs root k := by
  intro c t d hc h
  obtain ⟨⟨child, d⟩, hread, h⟩ := Option.bind_eq_some_iff.1 h
  cases h
  exact branch_innermost hrule (List.forall_mem_singleton.2 (hp hc hread))

theorem either_absorbs (hp : p.Absorbs root k) (hq : q.Absorbs root k) :
    (either p q).Absorbs root k := by
  intro c t d hc h
  rw [either] at h
  cases hread : p c with
  | none => exact hq hc (by simpa [hread] using h)
  | some _ => exact hp hc (hread.trans (by simpa [hread] using h))

theorem firstOf_absorbs {ps : List Production} (h : ∀ p ∈ ps, Absorbs root k p) :
    (firstOf ps).Absorbs root k := by
  intro c t d hc hread
  obtain ⟨p, hp, hread⟩ := List.exists_of_findSome?_eq_some hread
  exact h p hp hc hread

theorem optionalPart_innermost (hp : p.Absorbs root k) (hc : root.Below k c)
    (h : optionalPart p c = (t, d)) : t.AllInnermost root := by
  rw [optionalPart] at h
  split at h
  · next child d' hread =>
    cases h
    exact Tree.allInnermost_node (Tree.innermost_of_not_isOpen rfl)
      (List.forall_mem_singleton.2 (hp hc.skip hread))
  · cases h
    exact Tree.allInnermost_node (Tree.innermost_of_not_isOpen rfl) (List.forall_mem_nil _)

theorem optionalPart_reaches (hp : p.Reads (.rule rule)) (h : optionalPart p c = (t, d)) :
    c.Reaches d := by
  obtain ⟨hfills, -⟩ : Fills .optional c [t] d ∧ _ := optionalPart_fills hp h
  exact hfills.reaches

/-- What is read again and again is read step by step. -/
theorem steps_of_eq {α : Type} {step : Cursor → Option (α × Cursor)} {as : List α}
    (h : repeated step n c = (as, d)) : Steps step c as d := by
  induction n generalizing c as with
  | zero =>
    cases h
    exact .nil
  | succ n ih =>
    rw [repeated] at h
    split at h
    · cases h
      exact .nil
    · next a d' hstep =>
      generalize hrest : repeated step n d' = rest at h
      obtain ⟨bs, e⟩ := rest
      cases h
      exact .cons hstep (ih hrest)

/-- What holds of whatever a step reads behind the root holds of all that is read step by step. -/
theorem steps_forall {α : Type} {P : α → Prop} {step : Cursor → Option (α × Cursor)} {as : List α}
    (hstep : ∀ ⦃c a d⦄, root.Below k c → step c = some (a, d) → P a ∧ c.Reaches d)
    (hc : root.Below k c) (h : Steps step c as d) : (∀ a ∈ as, P a) ∧ root.Below k d := by
  induction h with
  | nil => exact ⟨List.forall_mem_nil _, hc⟩
  | cons hread _ ih =>
    obtain ⟨hfirst, hreach⟩ := hstep hc hread
    obtain ⟨hmore, hd⟩ := ih (hc.step hreach)
    exact ⟨List.forall_mem_cons.2 ⟨hfirst, hmore⟩, hd⟩

/-! ## Lists -/

/-- A list is empty where its first element cannot be read; otherwise every further element stands
behind a comma. -/
theorem separated_cases (h : separated n p c = (ts, e)) :
    (ts = [] ∧ e = c ∧ p c.skipBlank = none) ∨
      ∃ t us d, ts = t :: us ∧ p c.skipBlank = some (t, d) ∧ repeated (commaStep p) n d = (us, e) := by
  rw [separated] at h
  split at h
  · next hnone =>
    cases h
    exact .inl ⟨rfl, rfl, hnone⟩
  · next t d hread =>
    change (t :: (repeated (commaStep p) n d).1, (repeated (commaStep p) n d).2) = _ at h
    generalize hrest : repeated (commaStep p) n d = rest at h
    obtain ⟨us, e'⟩ := rest
    cases h
    exact .inr ⟨t, us, d, rfl, hread, hrest⟩

section Elements

variable {slot : Slot} (hreads : p.Reads slot) (hsolid : slot.isSolid = true)
include hreads hsolid

/-- What is behind a comma is read behind the root as well. -/
theorem commaStep_below (hc : root.Below k c) (h : commaStep p c = some (t, d)) :
    root.Below k d ∧ ∃ e, root.Below k e ∧ p e = some (t, d) := by
  refine ⟨hc.step (commaStep_past hreads hsolid h).1, ?_⟩
  obtain ⟨e, hsign, hread⟩ := Option.bind_eq_some_iff.1 h
  have hcomma := sign_past (only_exactly [',']) (List.cons_ne_nil _ _) hsign
  exact ⟨e.skipBlank, (hc.skip.step hcomma.1).skip, hread⟩

theorem separated_innermost (hp : p.Absorbs root k) (hc : root.Below k c)
    (h : separated n p c = (ts, e)) : ∀ t ∈ ts, t.AllInnermost root := by
  obtain ⟨rfl, -, -⟩ | ⟨t, us, d, rfl, hread, hrest⟩ := separated_cases h
  · exact List.forall_mem_nil _
  · refine List.forall_mem_cons.2 ⟨hp hc.skip hread, ?_⟩
    refine (steps_forall (fun c t d hc h => ?_) (hc.skip.step (hreads hread).1.reaches)
      (steps_of_eq hrest)).1
    obtain ⟨hd, e, he, hread⟩ := commaStep_below hreads hsolid hc h
    exact ⟨hp he hread, (commaStep_past hreads hsolid h).1⟩

/-- In a list a call with arguments is the last element, if no comma continues a list behind one. -/
theorem separated_alone (hclose : ∀ ⦃c t d⦄, root.Below k c → p c = some (t, d) →
      t.entry.takesArguments = true → commaStep p d = none) (hc : root.Below k c)
    (h : separated n p c = (ts, e)) : ∀ t ∈ ts.dropLast.map Tree.entry, t.takesArguments = false := by
  obtain ⟨rfl, -, -⟩ | ⟨t, us, d, rfl, hread, hrest⟩ := separated_cases h
  · exact List.forall_mem_nil _
  · have hd := hc.skip.step (hreads hread).1.reaches
    have hsteps := steps_of_eq hrest
    have hfirst := hclose hc.skip hread
    clear hrest hread h
    induction hsteps generalizing t with
    | nil => exact List.forall_mem_nil _
    | cons hstep _ ih =>
      obtain ⟨hd', e', he', hread'⟩ := commaStep_below hreads hsolid hd hstep
      rw [List.dropLast_cons_cons, List.map_cons, List.forall_mem_cons]
      refine ⟨?_, ih _ hd' (hclose he' hread')⟩
      cases htakes : t.entry.takesArguments with
      | false => rfl
      | true => exact absurd (hstep.symm.trans (hfirst htakes)) nofun

end Elements

theorem commaList_innermost {slot : Slot} (hreads : p.Reads slot) (hsolid : slot.isSolid = true)
    (hrule : rule.isOpen = false) (hp : p.Absorbs root k) (hc : root.Below k c)
    (h : commaList n rule p c = (t, d)) : t.AllInnermost root := by
  rw [commaList] at h
  split at h
  · cases h
    exact Tree.allInnermost_node (Tree.innermost_of_not_isOpen hrule) (List.forall_mem_nil _)
  · next ts d' hne hlist =>
    cases h
    exact branch_innermost hrule (separated_innermost hreads hsolid hp hc hlist)

/-- A list between brackets whose elements close where they end. -/
theorem bracketed_absorbs {slot : Slot} {opening closing : List Char} (hreads : p.Reads slot)
    (hsolid : slot.isSolid = true) (hp : p.Absorbs root k)
    (hclose : ∀ ⦃c t d⦄, root.Below k c → p c = some (t, d) →
      t.entry.takesArguments = true → commaStep p d = none)
    (hfollowed : ∀ text start ts,
      (Tree.node rule text start ts).followed = ts.dropLast.map Tree.entry)
    (hrule : rule ≠ .callExpression) (hopening : opening ≠ []) :
    (bracketed n rule opening closing p).Absorbs root (k + 1) := by
  intro c t d hc h
  obtain ⟨d₁, hopen, h⟩ := Option.bind_eq_some_iff.1 h
  generalize hlist : separated n p d₁ = list at h
  obtain ⟨ts, e⟩ := list
  obtain ⟨g, -, h⟩ := Option.bind_eq_some_iff.1 h
  cases h
  have hd := hc.past (sign_past (only_exactly opening) hopening hopen)
  refine Tree.allInnermost_node (Tree.innermost_of_alone hrule ?_)
    (separated_innermost hreads hsolid hp hd hlist)
  rw [hfollowed]
  exact separated_alone hreads hsolid hclose hd hlist

end Production

end Chainlet
