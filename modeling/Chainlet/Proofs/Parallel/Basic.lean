import Mathlib.Data.List.Forall2
import Chainlet.Proofs.Grammar.Step

/-!
# Proofs/Parallel/Basic — two readings side by side

Two sources may differ in what stands behind a part, in where the part begins, or in the blanks
inside it, and the grammar still reads the same in both.  `Parallel R T` is what such a pair of
sources has to satisfy word by word: `R d` relates the cursors at which the two readings stand, with
`d` brackets open around them, and `T` the nodes that they make.  From that **every production reads
alike** (`Alike`), whether it succeeds or fails; here for each way of putting productions together,
and in `Parallel/Grammar` for the grammar.
-/

namespace Chainlet

/-! ## Cursors with something between them -/

namespace Cursor

/-- A cursor behind another one, with at least one character between them. -/
def Past (c d : Cursor) : Prop := c.Reaches d ∧ d.rest.length < c.rest.length

variable {c d e : Cursor}

theorem Reaches.past (h : c.Reaches d) (h' : d.Past e) : c.Past e :=
  ⟨h.trans h'.1, Nat.lt_of_lt_of_le h'.2 h.length_le⟩

theorem Past.reaches (h : c.Past d) (h' : d.Reaches e) : c.Past e :=
  ⟨h.1.trans h', Nat.lt_of_le_of_lt h'.length_le h.2⟩

theorem Past.trans (h : c.Past d) (h' : d.Past e) : c.Past e := h.1.past h'

end Cursor

/-! ## The words of the language -/

open Production

/-- The words that leave a node inside an item. -/
inductive IsWord : Rule → Lexeme → Prop where
  | name : IsWord .name .name
  | keyword : IsWord .keyword .keyword
  | operator : IsWord .operator .operator
  | string : IsWord .stringLiteral .string
  | float : IsWord .floatLiteral .float
  | hex : IsWord .hexLiteral .hex
  | binary : IsWord .binaryLiteral .binary
  | octal : IsWord .octalLiteral .octal
  | decimal : IsWord .decimalLiteral .decimal
  | boolean : IsWord .booleanLiteral .boolean

/-- The words that stand between others and leave no node. -/
inductive IsSign : Lexeme → Prop where
  | equals : IsSign .equals
  | comma : IsSign (.exactly [','])
  | point : IsSign (.exactly ['.'])
  | colon : IsSign (.exactly [':'])
  | less : IsSign (.exactly ['<'])
  | greater : IsSign (.exactly ['>'])
  | ampersand : IsSign (.exactly ['&'])

inductive IsOpening : List Char → Prop where
  | array : IsOpening ['$', '[']
  | object : IsOpening ['$', '{']
  | tuple : IsOpening ['$', '(']
  | block : IsOpening ['{']
  | group : IsOpening ['(']

inductive IsClosing : List Char → Prop where
  | square : IsClosing [']']
  | curly : IsClosing ['}']
  | round : IsClosing [')']

theorem IsWord.forms {rule : Rule} {l : Lexeme} (h : IsWord rule l) :
    l.Splits ∧ ∃ form, rule.form? = some form ∧ l.Forms form := by
  cases h
  case name => exact ⟨Lexeme.name_splits, _, rfl, Lexeme.name_forms⟩
  case keyword => exact ⟨Lexeme.keyword_splits, _, rfl, Lexeme.keyword_forms⟩
  case operator => exact ⟨Lexeme.operator_splits, _, rfl, Lexeme.operator_forms⟩
  case string => exact ⟨Lexeme.string_splits, _, rfl, Lexeme.string_forms⟩
  case float => exact ⟨Lexeme.float_splits, _, rfl, Lexeme.float_forms⟩
  case hex => exact ⟨Lexeme.hex_splits, _, rfl, Lexeme.based_forms _ _⟩
  case binary => exact ⟨Lexeme.binary_splits, _, rfl, Lexeme.based_forms _ _⟩
  case octal => exact ⟨Lexeme.octal_splits, _, rfl, Lexeme.based_forms _ _⟩
  case decimal => exact ⟨Lexeme.decimal_splits, _, rfl, Lexeme.decimal_forms⟩
  case boolean => exact ⟨Lexeme.boolean_splits, _, rfl, Lexeme.boolean_forms⟩

theorem leaf_past {rule : Rule} {l : Lexeme} (h : IsWord rule l) {c d : Cursor} {t : Tree}
    (hread : leaf rule l c = some (t, d)) : c.Past d := by
  obtain ⟨hsplits, form, hform, hforms⟩ := h.forms
  obtain ⟨⟨word, rest⟩, hword, heq⟩ := Option.map_eq_some_iff.1 hread
  cases heq
  have htext := hsplits _ _ _ hword
  have hlength := Cursor.length_after htext
  have hpos := List.length_pos_iff.2 (rule.word_ne_nil hform (hforms hword))
  exact ⟨Cursor.reaches_after htext, by omega⟩

theorem sign_past {l : Lexeme} {word : List Char} (hl : Only l word) (hne : word ≠ [])
    {c d : Cursor} (hread : sign l c = some d) : c.Past d := by
  refine ⟨?_, hl.length_lt hne hread⟩
  obtain ⟨rest, htext, rfl⟩ := hl.sign hread
  exact Cursor.reaches_after htext

theorem IsSign.past {l : Lexeme} (h : IsSign l) {c d : Cursor} (hread : sign l c = some d) :
    c.Past d := by
  cases h <;> exact sign_past (by first | exact only_equals | exact only_exactly _)
    (List.cons_ne_nil _ _) hread

/-! ## Related results -/

section Rel

variable {α α' β β' : Type} {S : α → α' → Prop} {Q : β → β' → Prop} {x : Option α} {x' : Option α'}

theorem rel_cases (h : Option.Rel S x x') :
    (x = none ∧ x' = none) ∨ ∃ a a', x = some a ∧ x' = some a' ∧ S a a' := by
  cases h with
  | none => exact .inl ⟨rfl, rfl⟩
  | some h => exact .inr ⟨_, _, rfl, rfl, h⟩

theorem rel_bind (h : Option.Rel S x x') {f : α → Option β} {f' : α' → Option β'}
    (hf : ∀ a a', S a a' → Option.Rel Q (f a) (f' a')) :
    Option.Rel Q (x >>= f) (x' >>= f') := by
  cases h with
  | none => exact .none
  | some h => exact hf _ _ h

theorem rel_imp {S' : α → α' → Prop} (h : Option.Rel S x x')
    (himp : ∀ a a', x = some a → x' = some a' → S a a' → S' a a') : Option.Rel S' x x' := by
  cases h with
  | none => exact .none
  | some h => exact .some (himp _ _ rfl rfl h)

end Rel

/-! ## Readings in step -/

/-- What a pair of sources satisfies word by word. -/
structure Parallel (R : Nat → Cursor → Cursor → Prop) (T : Tree → Tree → Prop) : Prop where
  skip : ∀ {d : Nat} {c c' : Cursor}, R d c c' → R d c.skipBlank c'.skipBlank
  word : ∀ {rule : Rule} {l : Lexeme} {d : Nat} {c c' : Cursor}, IsWord rule l → R d c c' →
    Option.Rel (fun r r' => T r.1 r'.1 ∧ R d r.2 r'.2) (leaf rule l c) (leaf rule l c')
  sign : ∀ {l : Lexeme} {d : Nat} {c c' : Cursor}, IsSign l → R d c c' →
    Option.Rel (R d) (Production.sign l c) (Production.sign l c')
  opening : ∀ {w : List Char} {d : Nat} {c c' : Cursor}, IsOpening w → R d c c' →
    Option.Rel (R (d + 1)) (Production.sign (.exactly w) c) (Production.sign (.exactly w) c')
  closing : ∀ {w : List Char} {d : Nat} {c c' : Cursor}, IsClosing w → R (d + 1) c c' →
    Option.Rel (R d) (Production.sign (.exactly w) c) (Production.sign (.exactly w) c')
  /-- A semicolon with a bracket open around it ends nothing but an item of a block. -/
  semicolon : ∀ {d : Nat} {c c' : Cursor}, R (d + 1) c c' →
    Option.Rel (R (d + 1)) (Production.sign semicolon c) (Production.sign semicolon c')
  branch : ∀ {rule : Rule} {d : Nat} {c c' e e' : Cursor} {ts ts' : List Tree},
    rule.form? = none → R d c c' → R d e e' → c.Reaches e → c'.Reaches e' → List.Forall₂ T ts ts' →
    T (Production.branch rule c e ts) (Production.branch rule c' e' ts')
  absent : ∀ {rule : Rule} {d : Nat} {c c' : Cursor}, R d c c' →
    T (Production.absent rule c) (Production.absent rule c')
  optional : ∀ {t t' : Tree}, T t t' →
    T (.node .optional t.text t.start [t]) (.node .optional t'.text t'.start [t'])

/-- Two nodes that were read at corresponding cursors, and what is behind them. -/
structure ReadAlike (R : Nat → Cursor → Cursor → Prop) (T : Tree → Tree → Prop) (d : Nat)
    (c c' : Cursor) (r r' : Tree × Cursor) : Prop where
  tree : T r.1 r'.1
  stop : R d r.2 r'.2
  past : c.Past r.2
  past' : c'.Past r'.2

/-- **Two productions that read alike**, in rests that are shorter than two bounds. -/
def Alike (R : Nat → Cursor → Cursor → Prop) (T : Tree → Tree → Prop) (n n' : Nat)
    (p p' : Production) : Prop :=
  ∀ ⦃d : Nat⦄ ⦃c c' : Cursor⦄, R d c c' → c.rest.length < n → c'.rest.length < n' →
    Option.Rel (ReadAlike R T d c c') (p c) (p' c')

variable {R : Nat → Cursor → Cursor → Prop} {T : Tree → Tree → Prop} {n n' m m' k k' d : Nat}
  {p p' q q' : Production} {c c' : Cursor} {rule : Rule}

/-- A production with blanks in front of it. -/
theorem Alike.skip (h : Alike R T n n' p p') (hpar : Parallel R T) (hR : R d c c')
    (hlength : c.rest.length < n) (hlength' : c'.rest.length < n') :
    Option.Rel (ReadAlike R T d c c') (p c.skipBlank) (p' c'.skipBlank) :=
  rel_imp (h (hpar.skip hR) (Nat.lt_of_le_of_lt c.length_skipBlank hlength)
    (Nat.lt_of_le_of_lt c'.length_skipBlank hlength')) fun _ _ _ _ hread =>
      ⟨hread.tree, hread.stop, c.reaches_skipBlank.past hread.past,
        c'.reaches_skipBlank.past hread.past'⟩

section Combinators

variable (h : Parallel R T)
include h

/-! ## Words -/

theorem Parallel.leaf {l : Lexeme} (hl : IsWord rule l) :
    Alike R T n n' (leaf rule l) (leaf rule l) := fun _ _ _ hR _ _ =>
  rel_imp (h.word hl hR) fun _ _ hread hread' hrel =>
    ⟨hrel.1, hrel.2, leaf_past hl hread, leaf_past hl hread'⟩

/-- A sign with blanks in front of it. -/
theorem Parallel.signSkip {l : Lexeme} (hl : IsSign l) (hR : R d c c') :
    Option.Rel (fun e e' => R d e e' ∧ c.Past e ∧ c'.Past e') (Production.sign l c.skipBlank)
      (Production.sign l c'.skipBlank) :=
  rel_imp (h.sign hl (h.skip hR)) fun _ _ hread hread' hrel =>
    ⟨hrel, c.reaches_skipBlank.past (hl.past hread), c'.reaches_skipBlank.past (hl.past hread')⟩

theorem Parallel.signHere {l : Lexeme} (hl : IsSign l) (hR : R d c c') :
    Option.Rel (fun e e' => R d e e' ∧ c.Past e ∧ c'.Past e') (Production.sign l c)
      (Production.sign l c') :=
  rel_imp (h.sign hl hR) fun _ _ hread hread' hrel => ⟨hrel, hl.past hread, hl.past hread'⟩

theorem Parallel.openingHere {w : List Char} (hw : IsOpening w) (hR : R d c c') :
    Option.Rel (fun e e' => R (d + 1) e e' ∧ c.Past e ∧ c'.Past e')
      (Production.sign (.exactly w) c) (Production.sign (.exactly w) c') :=
  rel_imp (h.opening hw hR) fun _ _ hread hread' hrel =>
    have hne : w ≠ [] := by cases hw <;> exact List.cons_ne_nil _ _
    ⟨hrel, sign_past (only_exactly w) hne hread, sign_past (only_exactly w) hne hread'⟩

theorem Parallel.closingSkip {w : List Char} (hw : IsClosing w) (hR : R (d + 1) c c') :
    Option.Rel (fun e e' => R d e e' ∧ c.Past e ∧ c'.Past e')
      (Production.sign (.exactly w) c.skipBlank) (Production.sign (.exactly w) c'.skipBlank) :=
  rel_imp (h.closing hw (h.skip hR)) fun _ _ hread hread' hrel =>
    have hne : w ≠ [] := by cases hw <;> exact List.cons_ne_nil _ _
    ⟨hrel, c.reaches_skipBlank.past (sign_past (only_exactly w) hne hread),
      c'.reaches_skipBlank.past (sign_past (only_exactly w) hne hread')⟩

/-! ## One production from others -/

theorem Parallel.wrap (hrule : rule.form? = none) (hp : Alike R T n n' p p') :
    Alike R T n n' (wrap rule p) (wrap rule p') := by
  intro d c c' hR hlength hlength'
  refine rel_bind (hp hR hlength hlength') fun ⟨t, e⟩ ⟨t', e'⟩ hread => ?_
  exact .some ⟨h.branch hrule hR hread.stop hread.past.1 hread.past'.1 (.cons hread.tree .nil),
    hread.stop, hread.past, hread.past'⟩

omit h in
theorem Alike.either (hp : Alike R T n n' p p') (hq : Alike R T n n' q q') :
    Alike R T n n' (either p q) (either p' q') := by
  intro d c c' hR hlength hlength'
  rw [Production.either, Production.either]
  obtain ⟨hnone, hnone'⟩ | ⟨r, r', hsome, hsome', hread⟩ := rel_cases (hp hR hlength hlength')
  · rw [hnone, hnone']
    exact hq hR hlength hlength'
  · rw [hsome, hsome']
    exact .some hread

omit h in
theorem firstOf_alike {ps ps' : List Production} (hps : List.Forall₂ (Alike R T n n') ps ps') :
    Alike R T n n' (firstOf ps) (firstOf ps') := by
  induction hps with
  | nil => exact fun _ _ _ _ _ _ => .none
  | cons hp _ ih =>
    have hcons : ∀ (p : Production) (ps : List Production),
        firstOf (p :: ps) = Production.either p (firstOf ps) := by
      intro p ps
      funext c
      rw [firstOf, List.findSome?_cons, Production.either]
      cases p c <;> rfl
    rw [hcons, hcons]
    exact hp.either ih

/-! ## Parts that may be missing -/

/-- Two parts that may be missing, or two lists that may be empty. -/
structure PartAlike (R : Nat → Cursor → Cursor → Prop) (T : Tree → Tree → Prop) (d : Nat)
    (c c' : Cursor) (r r' : Tree × Cursor) : Prop where
  tree : T r.1 r'.1
  stop : R d r.2 r'.2
  reaches : c.Reaches r.2
  reaches' : c'.Reaches r'.2

theorem Parallel.optionalPart (hp : Alike R T n n' p p') (hR : R d c c')
    (hlength : c.rest.length < n) (hlength' : c'.rest.length < n') :
    PartAlike R T d c c' (optionalPart p c) (optionalPart p' c') := by
  rw [Production.optionalPart, Production.optionalPart]
  obtain ⟨hnone, hnone'⟩ | ⟨r, r', hsome, hsome', hread⟩ :=
    rel_cases (hp.skip h hR hlength hlength')
  · rw [hnone, hnone']
    exact ⟨h.absent hR, hR, c.reaches_refl, c'.reaches_refl⟩
  · rw [hsome, hsome']
    exact ⟨h.optional hread.tree, hread.stop, hread.past.1, hread.past'.1⟩

/-! ## Repetition -/

omit h in
/-- **Repetitions of steps in step.**  Neither of them meets its bound. -/
theorem repeated_alike {α : Type} {S : Cursor → Cursor → Prop} {A : α → α → Prop}
    {step step' : Cursor → Option (α × Cursor)}
    (hstep : ∀ ⦃c c' : Cursor⦄, S c c' → c.rest.length < k → c'.rest.length < k' →
      Option.Rel (fun r r' => A r.1 r'.1 ∧ S r.2 r'.2 ∧ c.Past r.2 ∧ c'.Past r'.2) (step c)
        (step' c')) {n n' : Nat} {c c' : Cursor} (hS : S c c') (hk : c.rest.length < k)
    (hk' : c'.rest.length < k') (hn : c.rest.length ≤ n) (hn' : c'.rest.length ≤ n') :
    List.Forall₂ A (repeated step n c).1 (repeated step' n' c').1 ∧
      S (repeated step n c).2 (repeated step' n' c').2 ∧ c.Reaches (repeated step n c).2 ∧
      c'.Reaches (repeated step' n' c').2 := by
  have hempty : ∀ (step : Cursor → Option (α × Cursor)) (n : Nat) (c : Cursor), step c = none →
      repeated step n c = ([], c) := by
    intro step n c hnone
    cases n with
    | zero => rfl
    | succ n => rw [repeated, hnone]
  obtain ⟨hnone, hnone'⟩ | ⟨r, r', hsome, hsome', hA, hS', hpast, hpast'⟩ :=
    rel_cases (hstep hS hk hk')
  · rw [hempty step n c hnone, hempty step' n' c' hnone']
    exact ⟨.nil, hS, c.reaches_refl, c'.reaches_refl⟩
  · have hlt := hpast.2
    have hlt' := hpast'.2
    cases n with
    | zero => omega
    | succ n =>
      cases n' with
      | zero => omega
      | succ n' =>
        obtain ⟨hall, hstop, hreaches, hreaches'⟩ := repeated_alike hstep hS' (by omega)
          (by omega) (by omega : r.2.rest.length ≤ n) (by omega : r'.2.rest.length ≤ n')
        rw [repeated, repeated, hsome, hsome']
        exact ⟨.cons hA hall, hstop, hpast.1.trans hreaches, hpast'.1.trans hreaches'⟩

/-! ## Lists -/

/-- A comma and an element, with blanks in front of both. -/
theorem Parallel.commaStep (hp : Alike R T k k' p p') (hR : R d c c') (hk : c.rest.length < k)
    (hk' : c'.rest.length < k') :
    Option.Rel (fun r r' => T r.1 r'.1 ∧ R d r.2 r'.2 ∧ c.Past r.2 ∧ c'.Past r'.2)
      (commaStep p c) (commaStep p' c') := by
  refine rel_bind (h.signSkip .comma hR) fun e e' ⟨hR', hpast, hpast'⟩ => ?_
  have hlt := hpast.2
  have hlt' := hpast'.2
  exact rel_imp (hp.skip h hR' (by omega) (by omega)) fun _ _ _ _ hread =>
    ⟨hread.tree, hread.stop, hpast.trans hread.past, hpast'.trans hread.past'⟩

theorem Parallel.separated (hp : Alike R T k k' p p') (hR : R d c c') (hk : c.rest.length < k)
    (hk' : c'.rest.length < k') (hn : c.rest.length ≤ n) (hn' : c'.rest.length ≤ n') :
    List.Forall₂ T (separated n p c).1 (separated n' p' c').1 ∧
      R d (separated n p c).2 (separated n' p' c').2 ∧ c.Reaches (separated n p c).2 ∧
      c'.Reaches (separated n' p' c').2 ∧
      ((separated n p c).1 ≠ [] → c.skipBlank.Reaches (separated n p c).2 ∧
        c'.skipBlank.Reaches (separated n' p' c').2) := by
  rw [Production.separated, Production.separated]
  have hskip := c.length_skipBlank
  have hskip' := c'.length_skipBlank
  obtain ⟨hnone, hnone'⟩ | ⟨r, r', hsome, hsome', hread⟩ :=
    rel_cases (hp (h.skip hR) (by omega) (by omega))
  · rw [hnone, hnone']
    exact ⟨.nil, hR, c.reaches_refl, c'.reaches_refl, fun hne => absurd rfl hne⟩
  · rw [hsome, hsome']
    have hlt := hread.past.2
    have hlt' := hread.past'.2
    obtain ⟨hall, hstop, hreaches, hreaches'⟩ := repeated_alike
      (fun c c' hR hk hk' => h.commaStep hp hR hk hk') hread.stop (by omega) (by omega)
      (by omega : r.2.rest.length ≤ n) (by omega : r'.2.rest.length ≤ n')
    have hwhole := (hread.past.reaches hreaches).1
    have hwhole' := (hread.past'.reaches hreaches').1
    exact ⟨.cons hread.tree hall, hstop, c.reaches_skipBlank.trans hwhole,
      c'.reaches_skipBlank.trans hwhole', fun _ => ⟨hwhole, hwhole'⟩⟩

theorem Parallel.commaList (hrule : rule.form? = none) (hp : Alike R T k k' p p') (hR : R d c c')
    (hk : c.rest.length < k) (hk' : c'.rest.length < k') (hn : c.rest.length ≤ n)
    (hn' : c'.rest.length ≤ n') :
    PartAlike R T d c c' (commaList n rule p c) (commaList n' rule p' c') := by
  obtain ⟨hall, hstop, hreaches, hreaches', hwhole⟩ := h.separated hp hR hk hk' hn hn'
  rw [Production.commaList, Production.commaList]
  generalize Production.separated n p c = r at hall hstop hreaches hwhole ⊢
  generalize Production.separated n' p' c' = r' at hall hstop hreaches' hwhole ⊢
  obtain ⟨ts, e⟩ := r
  obtain ⟨ts', e'⟩ := r'
  cases hall with
  | nil => exact ⟨h.absent hR, hR, c.reaches_refl, c'.reaches_refl⟩
  | cons hfirst hmore =>
    obtain ⟨hskip, hskip'⟩ := hwhole (List.cons_ne_nil _ _)
    have hlist := h.branch hrule (h.skip hR) hstop hskip hskip' (.cons hfirst hmore)
    exact ⟨hlist, hstop, hreaches, hreaches'⟩

/-- A list between brackets, where a comma may follow the last element. -/
theorem Parallel.bracketed {opening closing : List Char} (ho : IsOpening opening)
    (hc : IsClosing closing) (hrule : rule.form? = none) (hp : Alike R T k k' p p')
    (hk : m ≤ k + 1) (hk' : m' ≤ k' + 1) (hn : m ≤ n + 1) (hn' : m' ≤ n' + 1) :
    Alike R T m m' (bracketed n rule opening closing p)
      (bracketed n' rule opening closing p') := by
  intro d c c' hR hlength hlength'
  refine rel_bind (h.openingHere ho hR) fun e e' ⟨hRe, hpast, hpast'⟩ => ?_
  have hlt := hpast.2
  have hlt' := hpast'.2
  obtain ⟨hall, hstop, hreaches, hreaches', -⟩ := h.separated hp hRe (by omega) (by omega)
    (by omega : e.rest.length ≤ n) (by omega : e'.rest.length ≤ n')
  dsimp only
  generalize Production.separated n p e = r at hall hstop hreaches ⊢
  generalize Production.separated n' p' e' = r' at hall hstop hreaches' ⊢
  obtain ⟨ts, f⟩ := r
  obtain ⟨ts', f'⟩ := r'
  obtain ⟨hRg, hg, hg'⟩ : R (d + 1)
      (if ts.isEmpty then f else (Production.sign comma f.skipBlank).getD f)
      (if ts'.isEmpty then f' else (Production.sign comma f'.skipBlank).getD f') ∧
      f.Reaches (if ts.isEmpty then f else (Production.sign comma f.skipBlank).getD f) ∧
      f'.Reaches (if ts'.isEmpty then f' else (Production.sign comma f'.skipBlank).getD f') := by
    cases hall with
    | nil => exact ⟨hstop, f.reaches_refl, f'.reaches_refl⟩
    | cons _ _ =>
      obtain ⟨hnone, hnone'⟩ | ⟨g, g', hsome, hsome', hRg, hg, hg'⟩ :=
        rel_cases (h.signSkip .comma hstop)
      · rw [comma, hnone, hnone']
        exact ⟨hstop, f.reaches_refl, f'.reaches_refl⟩
      · rw [comma, hsome, hsome']
        exact ⟨hRg, hg.1, hg'.1⟩
  refine rel_bind (h.closingSkip hc hRg) fun g g' ⟨hRlast, hlast, hlast'⟩ => ?_
  have hwhole := (hpast.reaches hreaches).trans (hg.past hlast)
  have hwhole' := (hpast'.reaches hreaches').trans (hg'.past hlast')
  exact .some ⟨h.branch hrule hR hRlast hwhole.1 hwhole'.1 hall, hRlast, hwhole, hwhole'⟩

end Combinators

end Chainlet
