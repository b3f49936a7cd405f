import Chainlet.Program.Basic

/-!
# Program/Integer — the values of integer literals

An integer literal means the value of its digits in its base; the mark of the base and the
underscores are left out, and a plus sign may stand in front of the digits. It has a value only if
that fits in a word (`intValue?`).
-/

namespace Chainlet

/-- The value of a digit or letter, in either case, if it is a digit of a radix. -/
def digitValue? (radix : Nat) (c : Char) : Option Nat :=
  let value? :=
    if c.isDigit then some (c.toNat - '0'.toNat)
    else if c.isLower then some (c.toNat - 'a'.toNat + 10)
    else if c.isUpper then some (c.toNat - 'A'.toNat + 10)
    else none
  value?.filter (· < radix)

/-- The value of digits behind those that gave `value`. -/
def digitsValueFrom? (radix value : Nat) : List Char → Option Nat
  | [] => some value
  | c :: cs => do digitsValueFrom? radix (value * radix + (← digitValue? radix c)) cs

/-- The value of at least one digit, behind an optional plus sign. -/
def natValue? (radix : Nat) (text : List Char) : Option Nat :=
  let digits := match text with
    | '+' :: digits => digits
    | digits => digits
  if digits.isEmpty then none else digitsValueFrom? radix 0 digits

/-- A number that fits in a word. -/
def word? (n : Nat) : Option UInt32 := if n < UInt32.size then some (UInt32.ofNat n) else none

/-- **The value of an integer literal.** -/
def intValue? (base : Base) (text : String) : Option UInt32 := do
  word? (← natValue? base.radix ((base.digits text).toList.filter (· != '_')))

end Chainlet
