import Chainlet.Proofs.Spelling.Names

/-!
# Proofs/Spelling/First — how the words of a part of a program begin

The first word of a literal, an operand or an expression starts with a character of its class
(`Opens`).  Expressions and statements may begin with the same word, a path or a word like `@true`;
`MayLead` says what comes next if the words are those of an expression.
-/

namespace Chainlet

open Production Grammar

variable {first : Char → Bool} {ws : List Word} {w : Word}

/-! ## Literals -/

/-- A run of digits opens with a digit. -/
theorem opens_digits {isDigit : Char → Bool} (h : Form.digits isDigit w = true) :
    Opens isDigit [w] := by
  cases w with
  | nil => cases h
  | cons c cs =>
    rw [Form.digits, Bool.and_eq_true] at h
    exact opens_cons cs [] h.1

/-- An integer opens with a decimal digit: the prefixes of the other bases start with zero. -/
theorem opens_int {base : Base} (h : base.form w = true) : Opens Char.isDigit [w] := by
  have hbased : ∀ {mark : Char} {isDigit : Char → Bool},
      Form.based ['0', mark] isDigit w = true → Opens Char.isDigit [w] := by
    intro mark isDigit hform
    obtain ⟨digits, rfl⟩ := List.isPrefixOf_iff_prefix.1 ((Bool.and_eq_true ..).mp hform).1
    exact opens_cons _ [] rfl
  cases base with
  | decimal => exact opens_digits h
  | binary => exact hbased h
  | hexadecimal => exact hbased h
  | octal => exact hbased h

/-- A float opens with a digit. -/
theorem opens_float (h : Form.float w = true) : Opens Char.isDigit [w] := by
  obtain ⟨whole, fraction, hwhole, -, rfl⟩ := Form.float_eq h
  cases whole with
  | nil => cases hwhole
  | cons c cs =>
    rw [Form.digits, Bool.and_eq_true] at hwhole
    exact opens_cons _ [] hwhole.1

/-- A list between brackets opens with its bracket. -/
theorem Bracketed.opens {c : Char} {opening closing : List Char} {wss : List (List Word)}
    (h : Bracketed (c :: opening) closing wss ws) (hc : first c = true) : Opens first ws := by
  obtain rfl | ⟨-, rfl⟩ := h
  · exact opens_cons opening _ hc
  · exact opens_cons opening _ hc

theorem opens_boolean (value : Bool) :
    Opens (· == '@') [(if value then "@true" else "@false").toList] := by
  cases value
  · exact opens_cons "false".toList [] rfl
  · exact opens_cons "true".toList [] rfl

theorem startsLiteral_of_isDigit {c : Char} (h : c.isDigit = true) : startsLiteral c = true := by
  simp [startsLiteral, h]

/-- A literal opens with a character that starts one. -/
theorem Literal.opens {v : Literal} (h : v.isWritable = true) (hws : v.Spells ws) :
    Opens startsLiteral ws := by
  cases v with
  | array elements span =>
    obtain ⟨wss, hbrackets, -⟩ := hws
    exact hbrackets.opens rfl
  | object fields span =>
    obtain ⟨wss, hbrackets, -⟩ := hws
    exact hbrackets.opens rfl
  | tuple elements span =>
    obtain ⟨wss, hbrackets, -⟩ := hws
    exact hbrackets.opens rfl
  | string content span =>
    obtain rfl : ws = ['"' :: content.toList ++ ['"']] := hws
    exact opens_cons _ [] rfl
  | int text base span =>
    obtain rfl : ws = [text.toList] := hws
    exact (opens_int h).mono fun _ => startsLiteral_of_isDigit
  | float value span =>
    obtain ⟨word, rfl, hform, -⟩ := hws
    exact (opens_float hform).mono fun _ => startsLiteral_of_isDigit
  | boolean value span =>
    obtain rfl : ws = [(if value then "@true" else "@false").toList] := hws
    exact (opens_boolean value).mono fun c hc => by rw [beq_iff_eq.1 hc]; rfl

/-! ## Operands and expressions -/

/-- A path opens with a character that starts a name. -/
theorem opens_path {p : Path} (h : p.isWritable = true) : Opens isNameStart [p.word] := by
  obtain ⟨segments, span⟩ := p
  obtain ⟨hne, hall⟩ := (Bool.and_eq_true ..).mp h
  cases segments with
  | nil => cases hne
  | cons s ss =>
    rw [List.all_cons, Bool.and_eq_true] at hall
    obtain ⟨c, cs, us, hword, hc⟩ := opens_name hall.1 []
    rw [List.cons.injEq] at hword
    rw [path_word, hword.1]
    exact opens_cons _ [] hc

/-- An operator opens with one of its characters. -/
theorem opens_operator {o : Word} (h : Form.operator o = true) (us : List Word) :
    Opens isOperatorChar (o :: us) := by
  rw [Form.operator, Bool.and_eq_true, Bool.and_eq_true] at h
  obtain ⟨hne, -, hall⟩ := h
  cases o with
  | nil => cases hne
  | cons c cs =>
    rw [List.all_cons, Bool.and_eq_true] at hall
    exact opens_cons cs us hall.1

theorem opens_keyword (h : Form.keyword w = true) : Opens (· == '@') [w] := by
  unfold Form.keyword at h
  split at h
  · exact opens_cons _ [] rfl
  · cases h

theorem Block.opens {b : Block} (hws : b.Spells ws) : Opens (· == '{') ws := by
  obtain ⟨items, span⟩ := b
  obtain ⟨wss, rfl, -⟩ := hws
  exact opens_cons [] _ rfl

/-- An operand opens with a character that starts one. -/
theorem Operand.opens {v : Operand} (h : v.isWritable = true) (hws : v.Spells ws) :
    Opens startsOperand ws := by
  cases v with
  | literal v => exact (Literal.opens h hws).mono fun _ => startsOperand_of_startsLiteral
  | path p =>
    obtain rfl : ws = [p.word] := hws
    exact (opens_path h).mono fun _ => startsOperand_of_isNameStart
  | block b => exact (Block.opens hws).mono fun c hc => by rw [beq_iff_eq.1 hc]; rfl
  | group inner =>
    obtain ⟨us, rfl, -⟩ := hws
    exact opens_cons [] _ rfl

theorem Call.opens {c : Call} (hws : c.Spells ws) : Opens (· == '&') ws := by
  obtain ⟨callee, arguments, span⟩ := c
  obtain ⟨wss, rfl, -⟩ := hws
  exact opens_cons [] _ rfl

/-- An expression opens as its leftmost operand does, or with the mark of a call. -/
theorem Expression.opens {calls : Bool} : ∀ {e : Expression} {ws : List Word},
    e.isWritable calls = true → e.Spells ws → Opens startsExpression ws
  | .binary left operator right span, ws, h, hws => by
    obtain ⟨us, vs, rfl, hleft, -⟩ := hws
    exact (Expression.opens ((Bool.and_eq_true ..).mp h).1 hleft).append _
  | .call c, ws, _, hws => (Call.opens hws).mono fun c hc => by rw [beq_iff_eq.1 hc]; rfl
  | .operand v, ws, h, hws =>
    (Operand.opens h hws).mono fun _ => startsExpression_of_startsOperand

/-- An item opens as an expression does. -/
theorem Item.opens {i : Item} (h : i.isWritable = true) (hws : i.Spells ws) :
    Opens startsExpression ws := by
  cases i with
  | expression e => exact Expression.opens h hws
  | statement s =>
    cases s with
    | assignment target value span =>
      obtain ⟨us, rfl, -⟩ := hws
      exact ((opens_path ((Bool.and_eq_true ..).mp h).1).append (['='] :: us)).mono
        fun _ hc => startsExpression_of_startsOperand (startsOperand_of_isNameStart hc)
    | definition d =>
      obtain ⟨keyword, name, generics, parameters, binding, span⟩ := d
      obtain ⟨wss, us, rfl, -, -⟩ := hws
      have hopens := (opens_keyword ((Bool.and_eq_true ..).mp h).1).append
        (name.words ++ (genericsWords generics ++ (commaSeparated wss ++ us)))
      exact hopens.mono fun c hc => by rw [beq_iff_eq.1 hc]; rfl

theorem Binding.opens {b : Binding} (hws : b.Spells ws) : Opens (· == '=') ws := by
  obtain ⟨body, span⟩ := b
  cases body with
  | group inner =>
    obtain ⟨us, rfl, -⟩ | ⟨-, us, rfl, -⟩ := hws
    · exact opens_cons [] _ rfl
    · exact opens_cons [] _ rfl
  | _ =>
    obtain ⟨us, rfl, -⟩ := hws
    exact opens_cons [] _ rfl

/-! ## Expressions that look like statements -/

/-- A word that may be the first one of an expression, and of a statement too. -/
def IsAmbiguous (w : Word) : Prop :=
  (∃ p : Path, p.isWritable = true ∧ w = p.word) ∨ Form.boolean w = true

/-- How the words of an expression begin: with a word that no statement starts with, or with one that
is the whole expression or has an operator behind it. -/
def MayLead (ws : List Word) : Prop :=
  Opens (fun c => !(isNameStart c || c == '@')) ws ∨
    ∃ w us, ws = w :: us ∧ IsAmbiguous w ∧
      (us = [] ∨ ∃ o vs, us = o :: vs ∧ Form.operator o = true)

/-- An operator and more words behind an expression do not change how it begins. -/
theorem MayLead.append {o : Word} (h : MayLead ws) (ho : Form.operator o = true) (vs : List Word) :
    MayLead (ws ++ o :: vs) := by
  obtain h | ⟨w, us, rfl, hw, hus⟩ := h
  · exact .inl (h.append _)
  · refine .inr ⟨w, us ++ o :: vs, rfl, hw, .inr ?_⟩
    obtain rfl | ⟨o', vs', rfl, ho'⟩ := hus
    · exact ⟨o, vs, rfl, ho⟩
    · exact ⟨o', vs' ++ o :: vs, rfl, ho'⟩

/-- A literal begins with no word of a statement, or is a truth value. -/
theorem Literal.mayLead {v : Literal} (h : v.isWritable = true) (hws : v.Spells ws) :
    MayLead ws := by
  have hdigit : ∀ c : Char, c.isDigit = true → (!(isNameStart c || c == '@')) = true := by
    intro c hc
    have hat : (c == '@') = false := beq_eq_false_iff_ne.2 (ne_of_isDigit hc rfl)
    rw [isNameStart_of_isDigit hc, hat]
    rfl
  cases v with
  | array elements span =>
    obtain ⟨wss, hbrackets, -⟩ := hws
    exact .inl (hbrackets.opens rfl)
  | object fields span =>
    obtain ⟨wss, hbrackets, -⟩ := hws
    exact .inl (hbrackets.opens rfl)
  | tuple elements span =>
    obtain ⟨wss, hbrackets, -⟩ := hws
    exact .inl (hbrackets.opens rfl)
  | string content span =>
    obtain rfl : ws = ['"' :: content.toList ++ ['"']] := hws
    exact .inl (opens_cons _ [] rfl)
  | int text base span =>
    obtain rfl : ws = [text.toList] := hws
    exact .inl ((opens_int h).mono hdigit)
  | float value span =>
    obtain ⟨word, rfl, hform, -⟩ := hws
    exact .inl ((opens_float hform).mono hdigit)
  | boolean value span =>
    obtain rfl : ws = [(if value then "@true" else "@false").toList] := hws
    exact .inr ⟨_, [], rfl, .inr (by cases value <;> rfl), .inl rfl⟩

/-- An expression begins so that no statement is read in its place. -/
theorem Expression.mayLead {calls : Bool} : ∀ {e : Expression} {ws : List Word},
    e.isWritable calls = true → e.Spells ws → MayLead ws
  | .binary left operator right span, ws, h, hws => by
    obtain ⟨us, vs, rfl, hleft, -⟩ := hws
    obtain ⟨hleftWritable, h⟩ := (Bool.and_eq_true ..).mp h
    exact (Expression.mayLead hleftWritable hleft).append ((Bool.and_eq_true ..).mp h).1 vs
  | .call c, ws, _, hws => .inl ((Call.opens hws).mono fun c hc => by rw [beq_iff_eq.1 hc]; rfl)
  | .operand (.literal v), ws, h, hws => Literal.mayLead h hws
  | .operand (.path p), ws, h, hws => .inr ⟨p.word, [], hws, .inl ⟨p, h, rfl⟩, .inl rfl⟩
  | .operand (.block b), ws, _, hws =>
    .inl ((Block.opens hws).mono fun c hc => by rw [beq_iff_eq.1 hc]; rfl)
  | .operand (.group inner), ws, _, hws => by
    obtain ⟨us, rfl, -⟩ := hws
    exact .inl (opens_cons [] _ rfl)

end Chainlet
