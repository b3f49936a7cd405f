import Chainlet.Proofs.Spelling.First
import Chainlet.Proofs.Spelling.Literals

/-!
# Proofs/Spelling/Operands — literals, fields and operands from the expressions inside them

`Expression.Accepted`, `Literal.Accepted` and the like say that the production for a part of a program
reads certain words as that part.  The lemmas here give it for a part from the same for what the part
is made of; the recursion over programs that puts them together comes last, in `Spelling/Complete`.
-/

namespace Chainlet

open Production Grammar

/-- The characters behind an expression.  Behind a call no list may go on, for the call would take
the rest of it as its own arguments. -/
def endsExpression (calls : Bool) (c : Char) : Bool :=
  c == ';' || (c == ')' || (!calls && (c == ',' || (c == ']' || c == '}'))))

/-- No blank ends an expression. -/
theorem isVisible_of_endsExpression {calls : Bool} {c : Char} (h : endsExpression calls c = true) :
    isVisible c = true := by
  simp only [endsExpression, Bool.or_eq_true, Bool.and_eq_true, beq_iff_eq] at h
  obtain rfl | rfl | ⟨-, rfl | rfl | rfl⟩ := h
  all_goals rfl

/-- What ends an expression that may be a call ends every other one. -/
theorem endsExpression_false {calls : Bool} {c : Char} (h : endsExpression calls c = true) :
    endsExpression false c = true := by
  simp only [endsExpression, Bool.or_eq_true, Bool.and_eq_true] at h ⊢
  obtain h | h | ⟨-, h⟩ := h
  · exact .inl h
  · exact .inr (.inl h)
  · exact .inr (.inr ⟨rfl, h⟩)

/-! ## What it is for a part to be read -/

/-- Expressions that are read from words, however deep they may nest. -/
def Expression.Accepted (calls : Bool) (e : Expression) (ws : List Word) : Prop :=
  ∀ m, Accepts m (expressionAt m) (endsExpression calls) ws e.MeantBy

/-- A literal ends with its last word, whatever comes behind it. -/
def Literal.Accepted (v : Literal) (ws : List Word) : Prop :=
  ∀ ⦃k n m : Nat⦄ ⦃stop : Char → Bool⦄, k ≤ n + 1 → k ≤ m + 1 →
    Accepts k (literal n (expressionAt m)) stop ws v.MeantBy

/-- Operands that are read from words, whatever comes behind them. -/
def Operand.Accepted (v : Operand) (ws : List Word) : Prop :=
  ∀ ⦃n : Nat⦄ ⦃stop : Char → Bool⦄, Accepts (n + 1) (operand n (expressionAt n)) stop ws v.MeantBy

/-- Fields that are read from words, before what ends the expression in them. -/
def Field.Accepted (x : Field) (ws : List Word) : Prop :=
  ∀ m, Accepts m (field (expressionAt m)) (endsExpression false) ws x.MeantBy

/-- A semicolon stands behind every item. -/
def Item.Accepted (i : Item) (ws : List Word) : Prop :=
  ∀ ⦃k n m : Nat⦄, k ≤ n + 1 → k ≤ m →
    Accepts k (item n (expressionAt m)) (· == ';') ws i.MeantBy

variable {ws us : List Word} {wss : List (List Word)} {rest : List Word} {span : Option Span}

/-! ## An equals sign and an expression -/

/-- What is behind the equals sign of a field, an assignment or a binding. -/
theorem Expression.Accepted.behindEquals {calls : Bool} {e : Expression}
    (h : e.Accepted calls us) (hopens : Opens startsExpression us) {m : Nat} {c : Cursor}
    (hlength : c.rest.length < m) (hlaid : Laid (['='] :: us ++ rest) c.rest)
    (ho : Opens (endsExpression calls) rest) :
    ∃ d t f, sign .equals c = some d ∧ expressionAt m d.skipBlank = some (t, f) ∧ e.MeantBy t ∧
      Trails rest f.rest := by
  obtain ⟨d, hsign, hd⟩ := sign_laid Lexeme.equals_takes hlaid
  have hshort := only_equals.length_lt (List.cons_ne_nil _ _) hsign
  have hskip := d.length_skipBlank
  have hvisible : Opens isVisible (us ++ rest) :=
    (hopens.mono fun _ => isVisible_of_startsExpression).append rest
  obtain ⟨t, f, hread, hmeans, hf⟩ := h m (by omega) (hd.skip hvisible) ho
  exact ⟨d, t, f, hsign, hread, hmeans, hf⟩

/-- A field is read as its key, an equals sign and its value. -/
theorem field_accepted {key : TypedName} {value : Expression} (hkey : key.isWritable = true)
    (hvalue : value.Accepted false us) (hopens : Opens startsExpression us) :
    Field.Accepted ⟨key, value, span⟩ (key.words ++ ['='] :: us) := by
  intro m c rest hlength hlaid ho
  rw [List.append_assoc] at hlaid
  have hequals : Opens (· == '=') (['='] :: us ++ rest) := opens_cons [] _ rfl
  obtain ⟨t, d, hname, hmeans, hd⟩ := typedName_accepts (n := m) hkey
    (fun c hc => by rw [beq_iff_eq.1 hc]; exact ⟨rfl, rfl⟩) hlength hlaid hequals
  have hlt := typedName_reads.length_lt rfl hname
  have hskip := d.length_skipBlank
  obtain ⟨e, u, f, hsign, hread, hmeans', hf⟩ := hvalue.behindEquals (m := m) hopens (by omega)
    (hd.skip (opens_cons [] _ rfl)) ho
  refine ⟨branch .field c f [t, u], f, ?_, field_means hmeans hmeans', hf⟩
  exact Option.bind_eq_some_iff.2 ⟨_, hname, Option.bind_eq_some_iff.2 ⟨e, hsign,
    Option.bind_eq_some_iff.2 ⟨_, hread, rfl⟩⟩⟩

/-- The words of a field open with its key. -/
theorem Field.opens {x : Field} (h : x.isWritable = true) (hws : x.Spells ws) :
    Opens isNameStart ws := by
  obtain ⟨key, value, span⟩ := x
  obtain ⟨us, rfl, -⟩ := hws
  exact (opens_typedName ((Bool.and_eq_true ..).mp h).1).append _

/-! ## Literals -/

/-- A list with another opening bracket. -/
theorem bracketed_rejects {k m : Nat} {rule : Rule} {opening closing : List Char} {p : Production}
    {stop : Char → Bool} {w : Word}
    (h : ∀ tail : List Char, Lexeme.exactly opening (w ++ tail) = none) :
    Rejects k (bracketed m rule opening closing p) stop (w :: us) := by
  intro c rest _ hlaid _
  obtain ⟨tail, htext, -⟩ := hlaid.trails
  rw [bracketed, sign, htext, h tail]
  rfl

theorem not_startsExpression_of_closes {k : Char} (hk : startsExpression k = false) (c : Char)
    (hc : (c == k || c == ',') = true) : startsExpression c = false := by
  rw [Bool.or_eq_true, beq_iff_eq, beq_iff_eq] at hc
  obtain rfl | rfl := hc
  · exact hk
  · rfl

/-- Expressions in a list, read one by one. -/
theorem expressions_accepted_at {es : List Expression} (h : List.Forall₂
      (fun e ws => Expression.Accepted false e ws ∧ Opens startsExpression ws) es wss) (m : Nat) :
    List.Forall₂ (fun e ws => Accepts m (expressionAt m) (endsExpression false) ws
      (Expression.MeantBy e) ∧ Opens isVisible ws) es wss :=
  h.imp fun _ _ hboth => ⟨hboth.1 m, hboth.2.mono fun _ => isVisible_of_startsExpression⟩

section Lists

variable {es : List Expression} (h : List.Forall₂
  (fun e ws => Expression.Accepted false e ws ∧ Opens startsExpression ws) es wss)
include h

/-- An array is read from the words of its elements, with or without a comma behind the last. -/
theorem array_accepted (hws : Bracketed ['$', '['] [']'] wss ws) :
    Literal.Accepted (.array es span) ws := by
  intro k n m stop hn hm
  exact firstOf_accepts_head (bracketed_accepts rfl rfl rfl (by decide)
    (expressions_accepted_at h m) (expressionAt_reads m) rfl (expressionAt_startsWith m)
    (not_startsExpression_of_closes rfl) hws (fun _ _ _ => array_means) hm hn)

/-- A tuple is read from the words of its elements, with or without a comma behind the last. -/
theorem tuple_accepted (hws : Bracketed ['$', '('] [')'] wss ws) :
    Literal.Accepted (.tuple es span) ws := by
  intro k n m stop hn hm
  obtain ⟨vs, rfl⟩ : ∃ vs, ws = ['$', '('] :: vs := by
    obtain rfl | ⟨-, rfl⟩ := hws
    · exact ⟨_, rfl⟩
    · exact ⟨_, rfl⟩
  exact firstOf_accepts_tail (bracketed_rejects fun _ => rfl)
    (firstOf_accepts_tail (bracketed_rejects fun _ => rfl)
      (firstOf_accepts_head (bracketed_accepts rfl rfl rfl (by decide)
        (expressions_accepted_at h m) (expressionAt_reads m) rfl (expressionAt_startsWith m)
        (not_startsExpression_of_closes rfl) hws (fun _ _ _ => tuple_means) hm hn)))

end Lists

/-- An object is read from the words of its fields, with or without a comma behind the last. -/
theorem object_accepted {xs : List Field} (h : List.Forall₂
      (fun x ws => Field.Accepted x ws ∧ Opens isNameStart ws) xs wss)
    (hws : Bracketed ['$', '{'] ['}'] wss ws) : Literal.Accepted (.object xs span) ws := by
  intro k n m stop hn hm
  obtain ⟨vs, rfl⟩ : ∃ vs, ws = ['$', '{'] :: vs := by
    obtain rfl | ⟨-, rfl⟩ := hws
    · exact ⟨_, rfl⟩
    · exact ⟨_, rfl⟩
  have heach : List.Forall₂ (fun x ws => Accepts m (field (expressionAt m)) (endsExpression false)
      ws (Field.MeantBy x) ∧ Opens isVisible ws) xs wss :=
    h.imp fun _ _ hboth => ⟨hboth.1 m, hboth.2.mono fun _ => isVisible_of_isNameStart⟩
  have hcloses : ∀ c : Char, (c == '}' || c == ',') = true → isNameStart c = false := by
    intro c hc
    rw [Bool.or_eq_true, beq_iff_eq, beq_iff_eq] at hc
    obtain rfl | rfl := hc
    · rfl
    · rfl
  exact firstOf_accepts_tail (bracketed_rejects fun _ => rfl)
    (firstOf_accepts_head (bracketed_accepts rfl rfl rfl (by decide) heach
      (field_reads (expressionAt_reads m)) rfl field_startsWith hcloses hws
      (fun _ _ _ => object_means) hm hn))

/-- A string is read from its content in quotes. -/
theorem string_accepted {content : String}
    (h : Form.string ('"' :: content.toList ++ ['"']) = true) :
    Literal.Accepted (.string content span) ['"' :: content.toList ++ ['"']] :=
  fun _ _ _ _ _ _ => (string_accepts h).imp fun _ => string_means

/-- An integer is read from its digits, by the form of its base. -/
theorem int_accepted {text : String} {base : Base} (h : base.form text.toList = true) :
    Literal.Accepted (.int text base span) [text.toList] :=
  fun _ _ _ _ _ _ => (int_accepts h).imp fun _ => int_means

/-- A float is read from any digits that write its value. -/
theorem float_accepted {word : Word} {value : Binary32} (h : Form.float word = true)
    (hvalue : floatValue? (String.ofList word) = some value) :
    Literal.Accepted (.float value span) [word] :=
  fun _ _ _ _ _ _ => (float_accepts h).imp fun _ => float_means hvalue

/-- A truth value is read from its word, although a keyword starts like it. -/
theorem boolean_accepted (value : Bool) : Literal.Accepted (.boolean value span)
    [(if value then "@true" else "@false").toList] := by
  intro k n m stop _ _
  exact (boolean_accepts (by cases value <;> rfl)).imp fun _ => boolean_means

/-! ## Operands -/

section Alternatives

variable {k n m : Nat} {stop : Char → Bool}

/-- Words that no literal starts with. -/
theorem literal_rejects {first : Char → Bool} {p : Production} (ho : Opens first ws)
    (hfirst : ∀ c, first c = true → startsLiteral c = false) :
    Rejects k (wrap .literalOperand (literal n p)) stop ws :=
  rejects_of_startsWith (wrap_startsWith literal_startsWith _) ho hfirst

/-- A literal is an operand, and tried before the other ones. -/
theorem literalOperand_accepted {v : Literal} (h : v.Accepted ws) :
    Operand.Accepted (.literal v) ws := by
  intro n stop
  exact firstOf_accepts_head (wrap_accepts (h (Nat.le_refl _) (Nat.le_refl _))
    fun _ _ _ => literalOperand_means)

/-- A group is read from its parentheses, and holds any expression, a call included. -/
theorem group_accepted {inner : Expression} (h : inner.Accepted true us)
    (hopens : Opens startsExpression us) :
    Operand.Accepted (.group inner) (['('] :: us ++ [[')']]) := by
  intro n stop
  have ho : Opens (· == '(') (['('] :: us ++ [[')']]) := opens_cons [] _ rfl
  refine firstOf_accepts_tail (literal_rejects ho fun c hc => by rw [beq_iff_eq.1 hc]; rfl)
    (firstOf_accepts_head ?_)
  intro c rest hlength hlaid _
  rw [List.append_assoc] at hlaid
  obtain ⟨d, hopen, hd⟩ := sign_laid (Lexeme.exactly_takes ['(']) hlaid
  have hshort := (only_exactly ['(']).length_lt (List.cons_ne_nil _ _) hopen
  have hskip := d.length_skipBlank
  have hvisible : Opens isVisible (us ++ ([[')']] ++ rest)) :=
    (hopens.mono fun _ => isVisible_of_startsExpression).append _
  obtain ⟨t, e, hread, hmeans, he⟩ := h n (by omega) (hd.skip hvisible) (opens_cons [] rest rfl)
  obtain ⟨f, hclose, hf⟩ := sign_trails (Lexeme.exactly_takes [')']) he (opens_cons [] [] rfl)
  refine ⟨branch .groupOperand c f [t], f, ?_, groupOperand_means hmeans, hf⟩
  exact Option.bind_eq_some_iff.2 ⟨d, hopen, Option.bind_eq_some_iff.2 ⟨_, hread,
    Option.bind_eq_some_iff.2 ⟨f, hclose, rfl⟩⟩⟩

/-- A path is an operand; no literal, block or group starts with a name. -/
theorem path_accepted {p : Path} (h : p.isWritable = true) :
    Operand.Accepted (.path p) [p.word] := by
  intro n stop
  have ho := opens_path h
  exact firstOf_accepts_tail (literal_rejects ho fun _ => not_startsLiteral_of_isNameStart)
    (firstOf_accepts_tail (rejects_of_startsWith group_startsWith ho fun _ hc => ne_of_isNameStart hc rfl)
      (firstOf_accepts_tail
        (rejects_of_startsWith (wrap_startsWith block_startsWith _) ho
          fun _ hc => ne_of_isNameStart hc rfl)
        (firstOf_accepts_head (wrap_accepts (path_accepts h) fun _ _ _ => pathOperand_means))))

end Alternatives

/-! ## Blocks -/

/-- The items of a block are read one by one, each with its semicolon. -/
theorem itemSteps {items : List Item} (h : List.Forall₂
      (fun i ws => Item.Accepted i ws ∧ Opens startsExpression ws) items wss) {n : Nat}
    {c : Cursor} (hlength : c.rest.length < n)
    (hlaid : Trails (wss.flatMap (· ++ [[';']]) ++ rest) c.rest) :
    ∃ ts d, Steps (itemStep n (expressionAt n)) c ts d ∧ List.Forall₂ Item.MeantBy items ts ∧
      Trails rest d.rest := by
  induction h generalizing c with
  | nil => exact ⟨[], c, .nil, .nil, hlaid⟩
  | @cons i ws items wss hfirst _ ih =>
    rw [List.flatMap_cons, List.append_assoc, List.append_assoc] at hlaid
    have hskip := c.length_skipBlank
    have hvisible := (hfirst.2.mono fun _ => isVisible_of_startsExpression).append
      ([[';']] ++ (wss.flatMap (· ++ [[';']]) ++ rest))
    obtain ⟨t, d, hread, hmeans, hd⟩ := hfirst.1 (Nat.le_succ n) (Nat.le_refl n) (by omega)
      (hlaid.skip hvisible) (opens_cons [] _ rfl)
    obtain ⟨e, hsign, he⟩ := sign_trails (Lexeme.exactly_takes [';']) hd (opens_cons [] [] rfl)
    have hstep : itemStep n (expressionAt n) c = some (t, e) :=
      Option.bind_eq_some_iff.2 ⟨_, hread, Option.bind_eq_some_iff.2 ⟨e, hsign, rfl⟩⟩
    have hlt := itemStep_shortens (expressionAt_reads n) hstep
    obtain ⟨ts, f, hsteps, hall, hf⟩ := ih (by omega) he
    exact ⟨t :: ts, f, .cons hstep hsteps, .cons hmeans hall, hf⟩

/-- A block is read from its items between the braces. -/
theorem block_accepted {items : List Item} (h : List.Forall₂
      (fun i ws => Item.Accepted i ws ∧ Opens startsExpression ws) items wss) :
    Operand.Accepted (.block ⟨items, span⟩)
      (['{'] :: wss.flatMap (· ++ [[';']]) ++ [['}']]) := by
  intro n stop
  have ho : Opens (· == '{') (['{'] :: wss.flatMap (· ++ [[';']]) ++ [['}']]) :=
    opens_cons [] _ rfl
  have hbrace : ∀ {first : Char → Bool}, first '{' = false →
      ∀ c, (c == '{') = true → first c = false :=
    fun hfirst c hc => by rw [beq_iff_eq.1 hc]; exact hfirst
  refine firstOf_accepts_tail (literal_rejects ho (hbrace rfl)) (firstOf_accepts_tail
    (rejects_of_startsWith group_startsWith ho (hbrace rfl)) (firstOf_accepts_head
      (wrap_accepts (fun c rest hlength hlaid _ => ?_) fun _ _ _ => blockOperand_means)))
  rw [List.append_assoc] at hlaid
  obtain ⟨d, hopen, hd⟩ := sign_laid (Lexeme.exactly_takes ['{']) hlaid
  have hshort := (only_exactly ['{']).length_lt (List.cons_ne_nil _ _) hopen
  obtain ⟨ts, e, hsteps, hall, he⟩ := itemSteps h (n := n) (by omega) hd
  have hclosing : Opens (· == '}') ([['}']] ++ rest) := opens_cons [] rest rfl
  have hstop : itemStep n (expressionAt n) e = none := by
    have hnone := (item_startsWith n n).fails
      ((he.skip (opens_cons [] rest rfl)).not_any hclosing
        fun c hc => by rw [beq_iff_eq.1 hc]; rfl)
    rw [itemStep, hnone]
    rfl
  have hrun := repeated_eq_of_steps (n := n) (itemStep_shortens (expressionAt_reads n)) hsteps
    hstop (by omega)
  obtain ⟨f, hclose, hf⟩ := sign_trails (Lexeme.exactly_takes ['}']) he (opens_cons [] [] rfl)
  refine ⟨branch .block c f ts, f, ?_, block_means hall, hf⟩
  refine Option.bind_eq_some_iff.2 ⟨d, hopen, ?_⟩
  change (sign (.exactly ['}']) (repeated (itemStep n (expressionAt n)) n d).2.skipBlank).bind
    (fun f => some (branch .block c f (repeated (itemStep n (expressionAt n)) n d).1, f)) = _
  rw [hrun]
  exact Option.bind_eq_some_iff.2 ⟨f, hclose, rfl⟩

end Chainlet
