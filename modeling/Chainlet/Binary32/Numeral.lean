import Chainlet.Binary32.Shortest

/-!
# Binary32/Numeral — single precision numbers as text

A `Numeral` is a style of writing: which numbers are written out in full and which with a power of
ten, whether a whole number keeps a point, and what stands for the values that are no finite number.
`Binary32.text` writes the shortest digits in a style.
-/

namespace Chainlet

/-- A style of writing numbers. -/
structure Numeral where
  /-- The powers of ten of the first digit for which a number is written out in full, if not all. -/
  fullRange : Option (Int × Int)
  /-- Whether a whole number is written with a point and a zero. -/
  keepsPoint : Bool
  /-- Which of two equally short and equally near decimals is written. -/
  tie : Tie
  infinity : String
  negativeInfinity : String
  nan : String

namespace Numeral

/-- Digits around a point that stands behind the first `whole` of them, counted past either end. -/
def pointed (keepsPoint : Bool) (digits : List Char) (whole : Int) : List Char :=
  if whole ≤ 0 then '0' :: '.' :: (List.replicate whole.natAbs '0' ++ digits)
  else if (digits.length : Int) ≤ whole then
    digits ++ List.replicate (whole.natAbs - digits.length) '0' ++
      (if keepsPoint then ['.', '0'] else [])
  else digits.take whole.natAbs ++ '.' :: digits.drop whole.natAbs

/-- Digits with the point behind the first one and a power of ten, its sign always written. -/
def scientific (digits : List Char) (power : Int) : List Char :=
  let mantissa := match digits with
    | d :: e :: rest => d :: '.' :: e :: rest
    | digits => digits
  mantissa ++ 'e' :: (if power < 0 then '-' else '+') :: Nat.toDigits 10 power.natAbs

/-- A decimal in a style. -/
def decimalText (style : Numeral) (d : Decimal) : List Char :=
  let digits := Nat.toDigits 10 d.digits
  let power := d.exponent + digits.length - 1
  let full := match style.fullRange with
    | none => true
    | some (low, high) => low ≤ power && power ≤ high
  if full then pointed style.keepsPoint digits (power + 1) else scientific digits power

end Numeral

/-- **A number in a style**, with the fewest digits that read back. -/
def Binary32.text (style : Numeral) (x : Binary32) : String :=
  if x.isNaN then style.nan
  else if x.isInfinite then
    if x.isNegative then style.negativeInfinity else style.infinity
  else
    String.ofList ((if x.isNegative then ['-'] else []) ++
      style.decimalText (x.shortest style.tie))

end Chainlet
