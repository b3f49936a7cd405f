/-!
# Text/Blank — the white space between tokens

`isBlank` is the Unicode property White_Space: twenty-five code points, a third of them in the space
separators. `dropTrailingBlank` removes a run of them from the end of a text; every ASCII blank of
`Char.isWhitespace` is among them (`isBlank_of_isWhitespace`).
-/

namespace Chainlet

/-- The code points with the Unicode property White_Space, as closed ranges. -/
def blankRanges : List (Nat × Nat) :=
  [(0x09, 0x0D), (0x20, 0x20), (0x85, 0x85), (0xA0, 0xA0), (0x1680, 0x1680), (0x2000, 0x200A),
    (0x2028, 0x2029), (0x202F, 0x202F), (0x205F, 0x205F), (0x3000, 0x3000)]

/-- A character that separates tokens and means nothing. -/
def isBlank (c : Char) : Bool :=
  blankRanges.any fun (low, high) => low ≤ c.toNat && c.toNat ≤ high

theorem isBlank_of_isWhitespace {c : Char} (h : c.isWhitespace = true) : isBlank c = true := by
  simp only [Char.isWhitespace, Bool.or_eq_true, decide_eq_true_eq] at h
  rcases h with ((h | h) | h) | h <;> subst h <;> decide

/-- The text without the blanks at its end. -/
def dropTrailingBlank (text : List Char) : List Char :=
  (text.reverse.dropWhile isBlank).reverse

@[simp] theorem dropTrailingBlank_nil : dropTrailingBlank [] = [] := rfl

end Chainlet
