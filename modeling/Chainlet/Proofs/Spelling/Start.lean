import Chainlet.Grammar.Source
import Chainlet.Proofs.Grammar.Derivation
import Chainlet.Proofs.Spelling.Word

/-!
# Proofs/Spelling/Start — the characters that parts of a program start with

A production `StartsWith` a class of characters if it fails wherever the next character is not in the
class; a list of words `Opens` with a class if its first word starts in it.  Between them they say
which alternatives of the grammar are not taken in front of which words.
-/

namespace Chainlet

/-! ## Classes -/

/-- The characters that literals start with. -/
def startsLiteral (c : Char) : Bool := c == '$' || (c == '"' || (c == '@' || c.isDigit))

/-- The characters that operands start with. -/
def startsOperand (c : Char) : Bool :=
  startsLiteral c || (c == '(' || (c == '{' || isNameStart c))

/-- The characters that expressions start with. -/
def startsExpression (c : Char) : Bool := c == '&' || startsOperand c

/-- A literal is an operand, so what starts one starts the other. -/
theorem startsOperand_of_startsLiteral {c : Char} (h : startsLiteral c = true) :
    startsOperand c = true := by rw [startsOperand, h, Bool.true_or]

/-- A path is an operand, and a name starts it. -/
theorem startsOperand_of_isNameStart {c : Char} (h : isNameStart c = true) :
    startsOperand c = true := by simp [startsOperand, h]

/-- An operand is an expression, so what starts one starts the other. -/
theorem startsExpression_of_startsOperand {c : Char} (h : startsOperand c = true) :
    startsExpression c = true := by rw [startsExpression, h, Bool.or_true]

/-- No blank starts an expression. -/
theorem isVisible_of_startsExpression {c : Char} (h : startsExpression c = true) :
    isVisible c = true := by
  simp only [startsExpression, startsOperand, startsLiteral, Bool.or_eq_true, beq_iff_eq] at h
  obtain rfl | ((rfl | rfl | rfl | h) | rfl | rfl | h) := h
  all_goals first
    | rfl
    | exact isVisible_of_isDigit h
    | exact isVisible_of_isNameStart h

/-- A character that starts a name is none of the others that mean something. -/
theorem ne_of_isNameStart {c k : Char} (h : isNameStart c = true) (hk : isNameStart k = false) :
    (c == k) = false := by
  rw [beq_eq_false_iff_ne]
  rintro rfl
  rw [hk] at h
  cases h

/-- What starts a name starts no literal. -/
theorem not_startsLiteral_of_isNameStart {c : Char} (h : isNameStart c = true) :
    startsLiteral c = false := by
  have hdigit : c.isDigit = false := Bool.eq_false_iff.2 fun hdigit => by
    rw [isNameStart_of_isDigit hdigit] at h
    cases h
  rw [startsLiteral, ne_of_isNameStart h rfl, ne_of_isNameStart h rfl, ne_of_isNameStart h rfl,
    hdigit]
  rfl

/-! ## Productions -/

namespace Production

/-- A reader that fails wherever the next character is not of a class. -/
def StartsWith {α : Type} (p : Cursor → Option α) (first : Char → Bool) : Prop :=
  ∀ ⦃c : Cursor⦄ ⦃a : α⦄, p c = some a → c.rest.head?.any first = true

variable {α β : Type} {p : Cursor → Option α} {first second : Char → Bool}

/-- A production fails before a character that does not start it. -/
theorem StartsWith.fails (h : StartsWith p first) {c : Cursor}
    (hc : c.rest.head?.any first = false) : p c = none := by
  cases hread : p c with
  | none => rfl
  | some a => rw [h hread] at hc; cases hc

/-- A production starts with every class that holds the one it starts with. -/
theorem StartsWith.mono (h : StartsWith p first) (hle : ∀ c, first c = true → second c = true) :
    StartsWith p second := by
  intro c a hread
  have hc := h hread
  rw [Option.any_eq_true] at hc ⊢
  exact hc.imp fun x hx => ⟨hx.1, hle x hx.2⟩

/-- What follows a production does not change how it starts. -/
theorem StartsWith.bind (h : StartsWith p first) (f : Cursor → α → Option β) :
    StartsWith (fun c => p c >>= f c) first := by
  intro c b hread
  obtain ⟨a, ha, -⟩ := Option.bind_eq_some_iff.1 hread
  exact h ha

/-- The class of characters that the words of a lexeme start with. -/
def LexemeStartsWith (l : Lexeme) (first : Char → Bool) : Prop :=
  ∀ ⦃text word rest : List Char⦄, l text = some (word, rest) → text.head?.any first = true

/-- A fixed word starts with its first character. -/
theorem exactly_startsWith (c : Char) (cs : List Char) :
    LexemeStartsWith (.exactly (c :: cs)) (· == c) := by
  intro text word rest h
  obtain ⟨-, rfl⟩ := Lexeme.exactly_eq_some.1 h
  exact beq_self_eq_true c

/-- A run starts with the class of its first character. -/
theorem run_startsWith (first next : Char → Bool) : LexemeStartsWith (.run first next) first := by
  intro text word rest h
  obtain ⟨c, cs, rfl, hc, -, -⟩ := Lexeme.run_eq_some.1 h
  exact hc

/-- Two lexemes side by side start as the first does. -/
theorem LexemeStartsWith.glue {a : Lexeme} (h : LexemeStartsWith a first) (b : Lexeme) :
    LexemeStartsWith (.glue a b) first := by
  intro text word rest hread
  obtain ⟨head, middle, tail, hhead, -, -⟩ := Lexeme.glue_eq_some.1 hread
  exact h hhead

/-- A check behind a lexeme does not change how it starts. -/
theorem LexemeStartsWith.unglued {l : Lexeme} (h : LexemeStartsWith l first) :
    LexemeStartsWith (.unglued l) first :=
  fun _ _ _ hread => h (Lexeme.unglued_eq_some.1 hread).1

/-- A leaf starts as its lexeme does. -/
theorem leaf_startsWith {l : Lexeme} (h : LexemeStartsWith l first) (rule : Rule) :
    StartsWith (leaf rule l) first := by
  intro c a hread
  obtain ⟨⟨word, rest⟩, hword, -⟩ := Option.map_eq_some_iff.1 hread
  exact h hword

/-- A sign starts as its lexeme does. -/
theorem sign_startsWith {l : Lexeme} (h : LexemeStartsWith l first) :
    StartsWith (sign l) first := by
  intro c d hread
  obtain ⟨word, rest, hword, -⟩ := sign_eq_some.1 hread
  exact h hword

/-- The sign of a binding starts with an equals sign. -/
theorem equals_startsWith : LexemeStartsWith .equals (· == '=') :=
  fun _ _ _ hread => exactly_startsWith '=' [] (Lexeme.checked_eq_some.1 hread).1

theorem wrap_startsWith {p : Production} (h : StartsWith p first) (rule : Rule) :
    StartsWith (wrap rule p) first := h.bind _

/-- A choice starts with a class if both of its productions do. -/
theorem either_startsWith {p q : Production} (hp : StartsWith p first) (hq : StartsWith q first) :
    StartsWith (either p q) first := by
  intro c a h
  rw [either] at h
  cases hread : p c with
  | none => exact hq (by simpa [hread] using h)
  | some _ => exact hp hread

/-- A choice of several productions starts with a class if each of them does. -/
theorem firstOf_startsWith {ps : List Production} (h : ∀ p ∈ ps, StartsWith p first) :
    StartsWith (firstOf ps) first := by
  intro c a hread
  obtain ⟨p, hp, hread⟩ := List.exists_of_findSome?_eq_some hread
  exact h p hp hread

/-- A bracketed list starts with its opening bracket. -/
theorem bracketed_startsWith (n : Nat) (rule : Rule) (c : Char) (cs closing : List Char)
    (p : Production) : StartsWith (bracketed n rule (c :: cs) closing p) (· == c) :=
  (sign_startsWith (exactly_startsWith c cs)).bind _

end Production

namespace Grammar

open Production

variable {n : Nat} {inner : Production}

/-- A name starts with a letter or an underscore. -/
theorem name_startsWith : StartsWith name isNameStart := leaf_startsWith (run_startsWith _ _) _

/-- A keyword starts with an at sign. -/
theorem keyword_startsWith : StartsWith keyword (· == '@') :=
  leaf_startsWith ((exactly_startsWith '@' []).glue _) _

theorem path_startsWith : StartsWith (path n) isNameStart := name_startsWith.bind _

/-- A type annotation starts with its colon. -/
theorem typeAscription_startsWith : StartsWith typeAscription (· == ':') :=
  (sign_startsWith (exactly_startsWith ':' [])).bind _

theorem typedName_startsWith : StartsWith typedName isNameStart := name_startsWith.bind _

/-- A list of type parameters starts with its angle bracket. -/
theorem generics_startsWith : StartsWith (generics n) (· == '<') :=
  (sign_startsWith (exactly_startsWith '<' [])).bind _

theorem field_startsWith : StartsWith (field inner) isNameStart := typedName_startsWith.bind _

/-- A number with a prefix starts with the first character of the prefix. -/
theorem based_startsWith (c : Char) (cs : List Char) (isDigit : Char → Bool) :
    LexemeStartsWith (.based (c :: cs) isDigit) (· == c) :=
  ((exactly_startsWith c cs).glue _).unglued

theorem float_startsWith : LexemeStartsWith .float Char.isDigit :=
  ((run_startsWith _ _).glue _).unglued

theorem decimal_startsWith : LexemeStartsWith .decimal Char.isDigit := (run_startsWith _ _).unglued

theorem string_startsWith : LexemeStartsWith .string (· == '"') :=
  (exactly_startsWith '"' []).glue _

/-- A truth value starts with an at sign. -/
theorem boolean_startsWith : LexemeStartsWith .boolean (· == '@') :=
  LexemeStartsWith.unglued fun text word rest h => by
    obtain hread | hread := Lexeme.either_eq_some h
    · exact exactly_startsWith '@' "true".toList hread
    · exact exactly_startsWith '@' "false".toList hread

theorem literal_startsWith : StartsWith (literal n inner) startsLiteral := by
  have hdigit : ∀ c : Char, c.isDigit = true → startsLiteral c = true := by
    intro c hc
    simp [startsLiteral, hc]
  have hone : ∀ d : Char, startsLiteral d = true → ∀ c : Char, (c == d) = true →
      startsLiteral c = true := by
    intro d hd c hc
    rw [beq_iff_eq.1 hc]
    exact hd
  refine firstOf_startsWith fun p hp => ?_
  simp only [List.mem_cons, List.not_mem_nil, or_false] at hp
  obtain rfl | rfl | rfl | rfl | rfl | rfl | rfl | rfl | rfl | rfl := hp
  · exact (bracketed_startsWith ..).mono (hone '$' rfl)
  · exact (bracketed_startsWith ..).mono (hone '$' rfl)
  · exact (bracketed_startsWith ..).mono (hone '$' rfl)
  · exact (leaf_startsWith string_startsWith _).mono (hone '"' rfl)
  · exact (leaf_startsWith float_startsWith _).mono hdigit
  · exact (leaf_startsWith (based_startsWith '0' ['x'] _) _).mono (hone '0' rfl)
  · exact (leaf_startsWith (based_startsWith '0' ['b'] _) _).mono (hone '0' rfl)
  · exact (leaf_startsWith (based_startsWith '0' ['c'] _) _).mono (hone '0' rfl)
  · exact (leaf_startsWith decimal_startsWith _).mono hdigit
  · exact (leaf_startsWith boolean_startsWith _).mono (hone '@' rfl)

/-- An assignment starts with the path that it assigns to. -/
theorem assignment_startsWith : StartsWith (assignment n inner) isNameStart :=
  path_startsWith.bind _

/-- A parameter starts as an operand does, for it is a name or a literal. -/
theorem parameter_startsWith : StartsWith (parameter n inner) startsOperand :=
  either_startsWith
    ((wrap_startsWith literal_startsWith _).mono fun _ => startsOperand_of_startsLiteral)
    ((wrap_startsWith typedName_startsWith _).mono fun _ => startsOperand_of_isNameStart)

theorem binding_startsWith : StartsWith (binding inner) (· == '=') :=
  (sign_startsWith equals_startsWith).bind _

/-- A definition starts with its keyword. -/
theorem definition_startsWith : StartsWith (definition n inner) (· == '@') :=
  keyword_startsWith.bind _

theorem block_startsWith : StartsWith (block n inner) (· == '{') :=
  (sign_startsWith (exactly_startsWith '{' [])).bind _

theorem group_startsWith : StartsWith (group inner) (· == '(') :=
  (sign_startsWith (exactly_startsWith '(' [])).bind _

/-- An operand starts as one of its four kinds. -/
theorem operand_startsWith : StartsWith (operand n inner) startsOperand := by
  refine firstOf_startsWith fun p hp => ?_
  simp only [List.mem_cons, List.not_mem_nil, or_false] at hp
  obtain rfl | rfl | rfl | rfl := hp
  · exact (wrap_startsWith literal_startsWith _).mono fun _ => startsOperand_of_startsLiteral
  · exact group_startsWith.mono fun c hc => by rw [beq_iff_eq.1 hc]; rfl
  · exact (wrap_startsWith block_startsWith _).mono fun c hc => by rw [beq_iff_eq.1 hc]; rfl
  · exact (wrap_startsWith path_startsWith _).mono fun _ => startsOperand_of_isNameStart

/-- A call starts with an ampersand. -/
theorem call_startsWith : StartsWith (call n inner) (· == '&') :=
  (sign_startsWith (exactly_startsWith '&' [])).bind _

/-- A chain of operators starts as an expression does. -/
theorem chain_startsWith : StartsWith (chain n inner) startsExpression := by
  have hhead : StartsWith
      (either (call n inner) (wrap .operandExpression (operand n inner))) startsExpression :=
    either_startsWith (call_startsWith.mono fun c hc => by rw [beq_iff_eq.1 hc]; rfl)
      ((wrap_startsWith operand_startsWith _).mono fun _ => startsExpression_of_startsOperand)
  exact hhead.bind _

/-- An expression of any depth starts as one. -/
theorem expressionAt_startsWith (n : Nat) : StartsWith (expressionAt n) startsExpression := by
  cases n with
  | zero => exact fun _ _ h => nomatch h
  | succ n => exact chain_startsWith

/-- A statement starts with a keyword or a path. -/
theorem statement_startsWith :
    StartsWith (statement n inner) fun c => isNameStart c || c == '@' :=
  either_startsWith
    ((wrap_startsWith definition_startsWith _).mono fun _ hc => by rw [hc, Bool.or_true])
    ((wrap_startsWith assignment_startsWith _).mono fun _ hc => by rw [hc, Bool.true_or])

/-- An item starts as an expression does: a statement starts with a name or a keyword. -/
theorem item_startsWith (n m : Nat) : StartsWith (item n (expressionAt m)) startsExpression := by
  refine either_startsWith ((wrap_startsWith statement_startsWith _).mono fun c hc => ?_)
    (wrap_startsWith (expressionAt_startsWith m) _)
  rw [Bool.or_eq_true, beq_iff_eq] at hc
  obtain hc | rfl := hc
  · exact startsExpression_of_startsOperand (startsOperand_of_isNameStart hc)
  · rfl

end Grammar

end Chainlet
