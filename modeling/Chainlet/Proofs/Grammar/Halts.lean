import Chainlet.Proofs.Grammar.Absorbs
import Chainlet.Proofs.Grammar.Root

/-!
# Proofs/Grammar/Halts — every production moves on, so every reading ends

A production that reads something moves on by at least one character, and its node has exactly the text
that it moved past (`Production.Advances`); parts that may be missing and lists without brackets may also
stay where they are (`Cursor.MayConsume`).  Two things follow.  A repetition ends where its step fails,
after no more rounds than there are characters left (`Production.Halts`).  And an inner expression starts
behind a character of the outer one, so **what is read does not depend on what stands at the bottom of the
nesting**, if there are more levels than characters (`IsProduction.eq_of_length_le`).

Together that is `Grammar.reading_halts`, for all the productions of the grammar (`IsProduction`).
-/

namespace Chainlet

open Production

/-! ## What is moved past -/

/-- Whether a node was read from one cursor to another: it has the text between them, which is not empty,
and it starts where that text does. -/
structure Cursor.Consumes (c : Cursor) (t : Tree) (d : Cursor) : Prop where
  passes : c.Passes t.text.toList d
  start_eq : t.start = some c.offset
  text_ne : t.text.toList ≠ []

/-- Whether a node of a part that may be missing, or of a list that may be empty, stands for nothing, or
reaches from the start of its first child, behind the blanks, to the end of its last one. -/
def Cursor.MayConsume (c : Cursor) (r : Tree × Cursor) : Prop :=
  (r.1.children = [] ∧ r.1.text = "" ∧ r.1.start = some c.offset ∧ r.2 = c) ∨
    ∃ first last, r.1.children.head? = some first ∧ r.1.children.getLast? = some last ∧
      c.skipBlank.Consumes r.1 r.2 ∧ r.1.span = ⟨first.span.start, last.span.stop⟩

/-- A production that moves on whenever it reads something, past the text of its node. -/
def Production.Advances (p : Production) : Prop :=
  ∀ ⦃c : Cursor⦄ ⦃t : Tree⦄ ⦃d : Cursor⦄, p c = some (t, d) → c.Consumes t d

namespace Cursor.Consumes

variable {c d : Cursor} {t : Tree}

theorem reaches (h : c.Consumes t d) : c.Reaches d := ⟨_, h.passes⟩

theorem past (h : c.Consumes t d) : c.Past d := by
  refine ⟨h.reaches, ?_⟩
  have hpos := List.length_pos_iff.2 h.text_ne
  rw [h.passes.1, List.length_append]
  omega

theorem span_eq (h : c.Consumes t d) : t.span = ⟨c.offset, d.offset⟩ := by
  rw [Tree.span, h.start_eq, utf8ByteSize_eq_byteLength, h.passes.2]

end Cursor.Consumes

/-- A node that leaves less to be read was read from one cursor to the other. -/
theorem Derives.consumes {c d : Cursor} {t : Tree} (h : Derives c t d)
    (hlt : d.rest.length < c.rest.length) : c.Consumes t d := by
  refine ⟨h.passes, h.start_eq, fun hempty => ?_⟩
  have hrest := h.passes.1
  rw [hempty, List.nil_append] at hrest
  rw [hrest] at hlt
  exact Nat.lt_irrefl _ hlt

namespace Production

variable {p : Production} {slot : Slot} {rule : Rule} {n : Nat} {c d e : Cursor} {t : Tree}
  {ts : List Tree}

theorem Reads.advances (hp : p.Reads slot) (hsolid : slot.isSolid = true) : p.Advances :=
  fun _ _ _ h => (hp h).1.consumes (hp.length_lt hsolid h)

/-! ## Parts and lists -/

theorem Advances.optionalPart (hp : p.Advances) (c : Cursor) :
    c.MayConsume (optionalPart p c) := by
  rw [Production.optionalPart]
  split
  · next t d hread =>
    have ht := hp hread
    exact .inr ⟨t, t, rfl, rfl, ⟨ht.passes, ht.start_eq, ht.text_ne⟩, rfl⟩
  · exact .inl ⟨rfl, rfl, rfl, rfl⟩

/-- What stands behind a comma is read up to where the step ends. -/
theorem Advances.commaStep (hp : p.Advances) (h : commaStep p c = some (t, d)) :
    c.Past d ∧ t.span.stop = d.offset := by
  obtain ⟨e, hsign, hread⟩ := Option.bind_eq_some_iff.1 h
  have ht := hp hread
  have hcomma := sign_past (only_exactly [',']) (List.cons_ne_nil _ _) hsign
  refine ⟨(c.reaches_skipBlank.past hcomma).trans (e.reaches_skipBlank.past ht.past), ?_⟩
  rw [ht.span_eq]

/-- A list ends where its last element does. -/
theorem Advances.steps (hp : p.Advances) (hstop : t.span.stop = d.offset)
    (h : Steps (Production.commaStep p) d ts e) :
    d.Reaches e ∧ ∃ last, (t :: ts).getLast? = some last ∧ last.span.stop = e.offset := by
  induction h generalizing t with
  | nil => exact ⟨Cursor.reaches_refl _, t, rfl, hstop⟩
  | cons hstep _ ih =>
    obtain ⟨hpast, hstop⟩ := hp.commaStep hstep
    obtain ⟨hreaches, last, hlast, hend⟩ := ih hstop
    exact ⟨hpast.1.trans hreaches, last, by rw [List.getLast?_cons_cons, hlast], hend⟩

theorem Advances.commaList (hp : p.Advances) (n : Nat) (rule : Rule) (c : Cursor) :
    c.MayConsume (commaList n rule p c) := by
  rw [Production.commaList]
  split
  · exact .inl ⟨rfl, rfl, rfl, rfl⟩
  · next ts e hne hlist =>
    obtain ⟨rfl, -, -⟩ | ⟨t, us, d, rfl, hread, hrest⟩ := separated_cases hlist
    · exact absurd rfl hne
    · have ht := hp hread
      obtain ⟨hreaches, last, hlast, hend⟩ := hp.steps (by rw [ht.span_eq]) (steps_of_eq hrest)
      have hpast := ht.past.reaches hreaches
      obtain ⟨word, hword⟩ := hpast.1.exists_passes
      have htext : (branch rule c.skipBlank e (t :: us)).text.toList = word := by
        rw [branch, Tree.text, hword.textTo, String.toList_ofList]
      have hwhole : c.skipBlank.Consumes (branch rule c.skipBlank e (t :: us)) e := by
        refine ⟨htext ▸ hword, rfl, fun hempty => ?_⟩
        have hlt := hpast.2
        rw [hword.1, ← htext, hempty] at hlt
        exact Nat.lt_irrefl _ hlt
      refine .inr ⟨t, last, rfl, hlast, hwhole, ?_⟩
      rw [hwhole.span_eq, ht.span_eq, hend]

/-! ## Repetitions -/

/-- A step whose repetition ends because it fails: in at most as many rounds as there are characters left,
and every bound that large leaves the repetition as it is. -/
def Halts {α : Type} (step : Cursor → Option (α × Cursor)) : Prop :=
  ∀ c : Cursor, ∃ as d, Steps step c as d ∧ step d = none ∧ as.length ≤ c.rest.length ∧
    ∀ n, c.rest.length ≤ n → repeated step n c = (as, d)

variable {α : Type} {step step' : Cursor → Option (α × Cursor)}

/-- **Steps that move on come to an end.** -/
theorem Shortens.halts (h : Shortens step) : Halts step := by
  intro c
  obtain ⟨hsteps, hstop⟩ := steps_of_repeated h (Prod.eta (repeated step c.rest.length c)).symm
    (Nat.le_refl _)
  have hlength := hsteps.length_le h
  exact ⟨_, _, hsteps, hstop, by omega, fun n hn => repeated_eq_of_steps h hsteps hstop hn⟩

theorem Advances.shortens (hp : p.Advances) : Shortens (Production.commaStep p) :=
  fun _ _ _ h => (hp.commaStep h).1.2

/-- Steps that agree on all that is left are repeated alike. -/
theorem repeated_congr (hshort : Shortens step) {k : Nat}
    (hstep : ∀ c, c.rest.length ≤ k → step c = step' c) (n : Nat) (hk : c.rest.length ≤ k) :
    repeated step n c = repeated step' n c := by
  induction n generalizing c with
  | zero => rfl
  | succ n ih =>
    rw [repeated, repeated, ← hstep c hk]
    cases hread : step c with
    | none => rfl
    | some r =>
      have hlt : r.2.rest.length < c.rest.length := hshort hread
      dsimp only
      rw [ih (by omega)]

end Production

/-! ## Strings -/

/-- The step of a string: a character in front of the closing quote, with the one behind a backslash. -/
def quoteStep (c : Cursor) : Option (List Char × Cursor) :=
  match c.rest with
  | [] => none
  | '"' :: _ => none
  | '\\' :: x :: rest => some (['\\', x], c.after ['\\', x] rest)
  | x :: rest => some ([x], c.after [x] rest)

theorem quoteStep_shortens : Shortens quoteStep := by
  intro c word d h
  rw [quoteStep] at h
  split at h <;> cases h
  all_goals
    next heq =>
      rw [heq]
      simp only [Cursor.after, List.length_cons]
      omega

/-- A lexeme that takes a word and goes on behind it. -/
theorem sign_after {l : Lexeme} {c : Cursor} {word rest : List Char}
    (h : l c.rest = (l rest).map (Prod.map (word ++ ·) id)) :
    sign l c = sign l (c.after word rest) := by
  rw [sign, sign, h, Option.map_map]
  refine Option.map_congr fun r _ => ?_
  simp only [Function.comp_apply, Prod.map, Cursor.after, byteLength_append, Nat.add_assoc, id_eq]

/-- The search for the closing quote passes over what a step of a string reads. -/
theorem sign_closingQuote_of_step {c d : Cursor} {word : List Char}
    (h : quoteStep c = some (word, d)) : sign .closingQuote c = sign .closingQuote d := by
  rw [quoteStep] at h
  split at h <;> cases h
  · next heq => exact sign_after (by rw [heq, Lexeme.closingQuote]; rfl)
  · next hquote hescape heq =>
    refine sign_after ?_
    rw [heq, Lexeme.closingQuote]
    · rfl
    · exact hquote
    · exact hescape

/-- **A string ends with the quote at which its step fails**, or not at all. -/
theorem sign_closingQuote {c d : Cursor} {words : List (List Char)} (h : Steps quoteStep c words d)
    (hstop : quoteStep d = none) : sign .closingQuote c = sign (.exactly ['"']) d := by
  induction h with
  | @nil c =>
    rw [sign, sign]
    rw [quoteStep] at hstop
    split at hstop
    · next heq => rw [heq]; rfl
    · next heq => rw [heq]; rfl
    · cases hstop
    · cases hstop
  | cons hstep _ ih => rw [sign_closingQuote_of_step hstep, ih hstop]

/-! ## Readings with other bounds -/

/-- Two productions that read alike in shorter rests. -/
theorem Alike.mono {R : Nat → Cursor → Cursor → Prop} {T : Tree → Tree → Prop} {m m' k k' : Nat}
    {q q' : Production} (h : Alike R T m m' q q') (hk : k ≤ m) (hk' : k' ≤ m') : Alike R T k k' q q' :=
  fun _ _ _ hR hlength hlength' =>
    h hR (Nat.lt_of_lt_of_le hlength hk) (Nat.lt_of_lt_of_le hlength' hk')

/-- A production that advances reads alike at one and the same cursor. -/
theorem Production.Advances.alike {q : Production} {n n' : Nat} (hq : q.Advances) :
    Alike (fun _ => Eq) Eq n n' q q := by
  rintro d c _ rfl - -
  refine rel_imp (rel_self (S := Eq) (fun _ => rfl) (q c)) ?_
  rintro ⟨t, e⟩ _ hread - rfl
  exact ⟨rfl, rfl, (hq hread).past, (hq hread).past⟩

/-! ## Productions -/

namespace Grammar

/-- The expressions of a number of levels of nesting, with some other production at the bottom. -/
def expressionOver (bottom : Production) : Nat → Production
  | 0 => bottom
  | n + 1 => fun c => chain n (expressionOver bottom n) c

/-- The productions of the grammar, each of them with a bound on its repetitions and the production for
the inner expressions. -/
inductive IsProduction : (Nat → Production → Production) → Prop where
  | word {rule : Rule} {l : Lexeme} (h : IsWord rule l) : IsProduction fun _ _ => leaf rule l
  | docComment : IsProduction fun _ _ => leaf .docComment .docComment
  | element : IsProduction elementWith
  | item : IsProduction item
  | statement : IsProduction statement
  | assignment : IsProduction assignment
  | definition : IsProduction definition
  | generics : IsProduction fun n _ => generics n
  | parameter : IsProduction parameter
  | binding : IsProduction fun _ inner => binding inner
  | expression : IsProduction chain
  | inner : IsProduction fun _ inner => inner
  | call : IsProduction call
  | operand : IsProduction operand
  | group : IsProduction fun _ inner => group inner
  | block : IsProduction block
  | path : IsProduction fun n _ => path n
  | typedName : IsProduction fun _ _ => typedName
  | typeAscription : IsProduction fun _ _ => typeAscription
  | literal : IsProduction literal
  | array : IsProduction fun n inner => bracketed n .arrayLiteral ['$', '['] [']'] inner
  | object : IsProduction fun n inner => bracketed n .objectLiteral ['$', '{'] ['}'] (field inner)
  | tuple : IsProduction fun n inner => bracketed n .tupleLiteral ['$', '('] [')'] inner
  | field : IsProduction fun _ inner => field inner

variable {p : Nat → Production → Production} {inner inner' : Production} {n n' : Nat} {c : Cursor}

/-- Names of types stand behind a sign, so their node is not empty. -/
theorem generics_advances : (generics n).Advances := by
  intro c t d h
  have hderives := (generics_reads h).1
  obtain ⟨d₁, hopen, h⟩ := Option.bind_eq_some_iff.1 h
  dsimp only at h
  generalize hnames : separated n name d₁ = names at h
  obtain ⟨names, e⟩ := names
  split at h
  · cases h
  · obtain ⟨f, hclose, h⟩ := Option.bind_eq_some_iff.1 h
    cases h
    have hcomma : [','] ∈ Rule.generics.separators := by decide
    have hlist : d₁.Reaches e := by
      obtain ⟨-, ⟨-, rfl⟩ | hfills⟩ := separated_fills name_reads hcomma hnames
      · exact Cursor.reaches_refl _
      · exact d₁.reaches_skipBlank.trans hfills.reaches
    have hwhole := ((IsSign.past .less hopen).reaches hlist).trans
      (e.reaches_skipBlank.past (IsSign.past .greater hclose))
    exact hderives.consumes hwhole.2

/-- **Every production advances.** -/
theorem IsProduction.advances (hp : IsProduction p) (hinner : inner.Reads (.category .expression)) :
    (p n inner).Advances := by
  cases hp with
  | word h =>
    obtain ⟨hsplits, form, hform, hforms⟩ := h.forms
    refine (leaf_reads hforms hsplits hform).advances ?_
    cases h <;> rfl
  | docComment =>
    exact (leaf_reads Lexeme.docComment_forms Lexeme.docComment_splits rfl).advances rfl
  | element => exact (elementWith_reads hinner).advances rfl
  | item => exact (item_reads hinner).advances rfl
  | statement => exact (statement_reads hinner).advances rfl
  | assignment => exact (assignment_reads hinner).advances rfl
  | definition => exact (definition_reads hinner).advances rfl
  | generics => exact generics_advances
  | parameter => exact (parameter_reads hinner).advances rfl
  | binding => exact (binding_reads hinner).advances rfl
  | expression => exact (chain_reads hinner).advances rfl
  | inner => exact hinner.advances rfl
  | call => exact (call_reads hinner).advances rfl
  | operand => exact (operand_reads hinner).advances rfl
  | group => exact (group_reads hinner).advances rfl
  | block => exact (block_reads hinner).advances rfl
  | path => exact path_reads.advances rfl
  | typedName => exact typedName_reads.advances rfl
  | typeAscription => exact typeAscription_reads.advances rfl
  | literal => exact (literal_reads hinner).advances rfl
  | array => exact (bracketed_reads hinner rfl rfl (by decide)).advances rfl
  | object => exact (bracketed_reads (field_reads hinner) rfl rfl (by decide)).advances rfl
  | tuple => exact (bracketed_reads hinner rfl rfl (by decide)).advances rfl
  | field => exact (field_reads hinner).advances rfl

/-! ## Levels of nesting -/

/-- What stands at the bottom is never reached. -/
theorem expressionOver_alike (bottom : Production) (n n' : Nat) :
    Alike (fun _ => Eq) Eq n n' (expressionOver bottom n) (expressionAt n') := by
  induction n generalizing n' with
  | zero => exact fun _ _ _ _ hlength _ => absurd hlength (Nat.not_lt_zero _)
  | succ n ih =>
    cases n' with
    | zero => exact fun _ _ _ _ _ hlength' => absurd hlength' (Nat.not_lt_zero _)
    | succ n' => exact chain_alike parallel_self (ih n')

theorem expressionOver_alike_expression (bottom : Production) (n n' : Nat) :
    Alike (fun _ => Eq) Eq n n' (expressionOver bottom n) expression := by
  rintro d c _ rfl hn -
  exact expressionOver_alike bottom n _ rfl hn (Nat.lt_succ_self _)

section Bounds

variable (hinner : Alike (fun _ => Eq) Eq (n + 1) (n' + 1) inner inner')
include hinner

theorem itemElement_alike :
    Alike (fun _ => Eq) Eq (n + 1) (n' + 1) (itemElement n inner) (itemElement n' inner') := by
  rintro d c _ rfl hlength hlength'
  refine rel_bind (item_alike parallel_self hinner le_rfl le_rfl (d := d) rfl hlength hlength')
    fun ⟨t, e⟩ ⟨_, _⟩ hread => ?_
  obtain ⟨rfl, rfl, hpast, -⟩ := hread
  refine rel_bind (rel_imp (rel_self (S := Eq) (fun _ => rfl) _) fun f f' hsign _ heq =>
    (⟨heq, sign_past (only_exactly [';']) (List.cons_ne_nil _ _) hsign⟩ :
      f = f' ∧ e.skipBlank.Past f)) fun f _ ⟨heq, hf⟩ => ?_
  subst heq
  have hwhole := hpast.trans (e.reaches_skipBlank.past hf)
  exact .some ⟨rfl, rfl, hwhole, hwhole⟩

/-- **Every production reads alike with all bounds** that are as large as the rest. -/
theorem IsProduction.alike (hp : IsProduction p) :
    Alike (fun _ => Eq) Eq (n + 1) (n' + 1) (p n inner) (p n' inner') := by
  have hless := hinner.mono (Nat.le_succ n) (Nat.le_succ n')
  have hdoc : Alike (fun _ => Eq) Eq (n + 1) (n' + 1) (leaf .docComment .docComment)
      (leaf .docComment .docComment) :=
    (IsProduction.docComment.advances (n := 0) (expressionAt_reads 0)).alike
  cases hp with
  | word h => exact parallel_self.leaf h
  | docComment => exact hdoc
  | element => exact Alike.either (parallel_self.wrap rfl hdoc) (itemElement_alike hinner)
  | item => exact item_alike parallel_self hinner le_rfl le_rfl
  | statement => exact statement_alike parallel_self hinner le_rfl le_rfl
  | assignment => exact assignment_alike parallel_self hinner le_rfl le_rfl
  | definition => exact definition_alike parallel_self hinner le_rfl le_rfl
  | generics => exact generics_alike parallel_self le_rfl le_rfl
  | parameter => exact parameter_alike parallel_self hinner le_rfl le_rfl
  | binding => exact binding_alike parallel_self hinner
  | expression => exact chain_alike parallel_self hless
  | inner => exact hinner
  | call => exact call_alike parallel_self hless
  | operand => exact operand_alike parallel_self hless
  | group => exact group_alike parallel_self hless
  | block => exact block_alike parallel_self hless
  | path => exact path_alike parallel_self le_rfl le_rfl
  | typedName => exact typedName_alike parallel_self
  | typeAscription => exact typeAscription_alike parallel_self
  | literal => exact literal_alike parallel_self hless le_rfl le_rfl le_rfl le_rfl
  | array =>
    exact parallel_self.bracketed .array .square rfl hless le_rfl le_rfl le_rfl le_rfl
  | object =>
    exact parallel_self.bracketed .object .curly rfl (field_alike parallel_self hless) le_rfl le_rfl
      le_rfl le_rfl
  | tuple =>
    exact parallel_self.bracketed .tuple .round rfl hless le_rfl le_rfl le_rfl le_rfl
  | field => exact field_alike parallel_self hinner

end Bounds

/-- **What is read depends neither on a bound nor on the bottom of the nesting**, if the bound is as large
as the rest. -/
theorem IsProduction.eq_of_length_le (hp : IsProduction p) (bottom : Production)
    (hn : c.rest.length ≤ n) :
    p n (expressionOver bottom (n + 1)) c = p c.rest.length Grammar.expression c :=
  eq_of_alike (hp.alike (expressionOver_alike_expression bottom (n + 1) (c.rest.length + 1)))
    (Nat.lt_succ_of_le hn) (Nat.lt_succ_self _)

/-- Without anything at the bottom these are the expressions of the grammar. -/
theorem expressionOver_none (n : Nat) : expressionOver (fun _ => none) n = expressionAt n := by
  induction n with
  | zero => rfl
  | succ n ih => rw [expressionOver, ih]; rfl

/-- **An expression is a chain of expressions.** -/
theorem expression_eq_chain (c : Cursor) : expression c = chain c.rest.length expression c := by
  have hchain := chain_alike parallel_self
    (expressionAt_alike_expression c.rest.length c.rest.length)
  rw [show expression c = chain c.rest.length (expressionAt c.rest.length) c from rfl]
  exact eq_of_alike hchain (Nat.lt_succ_self _) (Nat.lt_succ_self _)

/-- The elements of a source, with a larger bound and anything at the bottom. -/
theorem elements_eq_repeated (bottom : Production) (hn : c.rest.length ≤ n) :
    elements c = Prod.map id Cursor.skipBlank
      (repeated (fun d => elementWith n (expressionOver bottom (n + 1)) d.skipBlank) n c) := by
  have hstep : ∀ d, d.rest.length ≤ c.rest.length → elementStep c.rest.length d
      = elementWith n (expressionOver bottom (n + 1)) d.skipBlank := by
    intro d hd
    have hskip := d.length_skipBlank
    rw [elementStep, ← expressionOver_none,
      IsProduction.element.eq_of_length_le (fun _ => none) (hskip.trans hd),
      IsProduction.element.eq_of_length_le bottom (hskip.trans (hd.trans hn))]
  obtain ⟨ts, d, -, -, -, hbound⟩ := (elementStep_shortens c.rest.length).halts c
  rw [← repeated_congr (elementStep_shortens _) hstep n le_rfl, hbound n hn]
  change Prod.map id Cursor.skipBlank (repeated (elementStep c.rest.length) c.rest.length c) = _
  rw [hbound _ le_rfl]

/-- An expression between parentheses stands strictly inside of them. -/
theorem group_inside {k : Nat} {d : Cursor} {t : Tree} (h : group (expressionAt k) c = some (t, d)) :
    ∃ body e f, t.children = [body] ∧ c.Past e ∧ e.Consumes body f ∧ f.Past d := by
  obtain ⟨d₁, hopen, h⟩ := Option.bind_eq_some_iff.1 h
  obtain ⟨⟨body, f⟩, hbody, h⟩ := Option.bind_eq_some_iff.1 h
  obtain ⟨g, hclose, h⟩ := Option.bind_eq_some_iff.1 h
  cases h
  exact ⟨body, d₁.skipBlank, f, rfl,
    (sign_past (only_exactly ['(']) (List.cons_ne_nil _ _) hopen).reaches d₁.reaches_skipBlank,
    (expressionAt_reads k).advances rfl hbody,
    f.reaches_skipBlank.past (sign_past (only_exactly [')']) (List.cons_ne_nil _ _) hclose)⟩

/-! ## The whole grammar -/

/-- What a production of the grammar does with all bounds: in its own place, where it may be missing, and
in lists without brackets. -/
structure Progresses (p : Nat → Production → Production) : Prop where
  advances : ∀ n k, (p n (expressionAt k)).Advances
  optionalPart : ∀ n k (c : Cursor), c.MayConsume (optionalPart (p n (expressionAt k)) c)
  commaList : ∀ m n k rule (c : Cursor), c.MayConsume (commaList m rule (p n (expressionAt k)) c)
  /-- Lists with brackets or without take elements until there is no other one behind a comma. -/
  halts : ∀ n k, Halts (commaStep (p n (expressionAt k)))
  /-- Neither the bound nor the bottom of the nesting is ever met. -/
  unbounded : ∀ bottom n c, c.rest.length ≤ n →
    p n (expressionOver bottom (n + 1)) c = p c.rest.length expression c

/-- What the other repetitions of the grammar take comes to an end. -/
structure LoopsHalt (n k : Nat) : Prop where
  path : Halts pointStep
  block : Halts (itemStep n (expressionAt k))
  chain : Halts (link n (expressionAt k))
  source : Halts (elementStep n)
  string : Halts quoteStep

theorem IsProduction.progresses (hp : IsProduction p) : Progresses p where
  advances _ k := hp.advances (expressionAt_reads k)
  optionalPart _ k := (hp.advances (expressionAt_reads k)).optionalPart
  commaList m _ k := (hp.advances (expressionAt_reads k)).commaList m
  halts _ k := (hp.advances (expressionAt_reads k)).shortens.halts
  unbounded bottom _ _ := hp.eq_of_length_le bottom

theorem loopsHalt (n k : Nat) : LoopsHalt n k where
  path := pointStep_shortens.halts
  block := (itemStep_shortens (expressionAt_reads k)).halts
  chain := (link_shortens (expressionAt_reads k)).halts
  source := (elementStep_shortens n).halts
  string := quoteStep_shortens.halts

/-- **Every reading ends.**  Each production moves past the text of its node, of at least one character,
and an expression between parentheses stands strictly inside of what is moved past; all repetitions end
because their steps fail, the one in a string at the closing quote; and expressions nest no deeper than
the rest is long, in an element and in a whole source. -/
theorem reading_halts :
    (∀ p, IsProduction p → Progresses p) ∧
    (∀ k c t d, group (expressionAt k) c = some (t, d) →
      ∃ body e f, t.children = [body] ∧ c.Past e ∧ e.Consumes body f ∧ f.Past d) ∧
    (∀ n k, LoopsHalt n k) ∧
    (∀ c words d, Steps quoteStep c words d → quoteStep d = none →
      sign .closingQuote c = sign (.exactly ['"']) d) ∧
    (∀ c, expression c = chain c.rest.length expression c) ∧
    ∀ bottom n c, c.rest.length ≤ n → elements c = Prod.map id Cursor.skipBlank
      (repeated (fun d => elementWith n (expressionOver bottom (n + 1)) d.skipBlank) n c) :=
  ⟨fun _ hp => hp.progresses, fun _ _ _ _ => group_inside, loopsHalt,
    fun _ _ _ => sign_closingQuote, expression_eq_chain, fun bottom _ _ => elements_eq_repeated bottom⟩

/-- A string between parentheses, with a character of two bytes in it. -/
theorem reading_halts_string : ∃ t : Tree, ∃ c d : Cursor, c = ⟨"s = (\"é\") ; t".toList, 0⟩ ∧
    d = ⟨[' ', 't'], 12⟩ ∧ t.text = "s = (\"é\") ;" ∧ c.Consumes t d ∧
    ∀ bottom, elementWith 13 (expressionOver bottom 14) c = some (t, d) := by
  obtain ⟨t, hread, htext⟩ : ∃ t : Tree, elementWith 13 (expressionAt 14) ⟨"s = (\"é\") ; t".toList, 0⟩
      = some (t, ⟨[' ', 't'], 12⟩) ∧ t.text = "s = (\"é\") ;" := ⟨_, rfl, by decide +kernel⟩
  have hp := reading_halts.1 _ .element
  have hlength : "s = (\"é\") ; t".toList.length ≤ 13 := by decide +kernel
  refine ⟨t, _, _, rfl, rfl, htext, hp.advances 13 14 hread, fun bottom => ?_⟩
  rw [hp.unbounded bottom 13 _ hlength, ← hp.unbounded (fun _ => none) 13 _ hlength, expressionOver_none,
    hread]

end Grammar

end Chainlet
