import Chainlet.Binary32.Basic

/-!
# Binary32/Decimal — decimals, and reading them as single precision numbers

A `Decimal` is a natural number times a power of ten. `Decimal.nearest` rounds it once, straight to
single precision. `Binary32.ofText?` reads a sign, digits with an optional point and an optional
exponent, or the name of an infinity or of no number, in either case of letters.
-/

namespace Chainlet

/-- The value `digits * 10 ^ exponent`. -/
structure Decimal where
  digits : Nat
  exponent : Int
deriving DecidableEq, Repr

namespace Decimal

/-- The number of decimal digits of a natural number; zero has one. -/
def width (n : Nat) : Nat := (Nat.toDigits 10 n).length

/-- The numerator and denominator of a decimal. -/
def ratio (d : Decimal) : Nat × Nat :=
  let power := Nat.pow 10 d.exponent.natAbs
  if d.exponent < 0 then (d.digits, power) else (d.digits * power, 1)

/-- The magnitude of the nearest single precision number. A decimal of at least `10 ^ 39` is
infinite and one below `10 ^ -46` is zero, so that no power of ten beyond them is ever formed. -/
def nearest (d : Decimal) : Nat :=
  if d.digits = 0 then 0
  else
    let top := d.exponent + width d.digits
    if 39 < top then Binary32.infinite
    else if top < -45 then 0
    else Binary32.nearestMagnitude d.ratio.1 d.ratio.2

end Decimal

namespace Binary32

/-- The value of a run of decimal digits after those already read. -/
def digitsValue (text : List Char) : Nat :=
  text.foldl (fun n c => 10 * n + (c.toNat - '0'.toNat)) 0

/-- The exponent behind an `e`, with an optional sign; nothing at all is exponent zero. -/
def exponentOfText? : List Char → Option Int
  | [] => some 0
  | e :: rest =>
    if e = 'e' ∨ e = 'E' then
      let (negative, digits) := match rest with
        | '-' :: digits => (true, digits)
        | '+' :: digits => (false, digits)
        | digits => (false, digits)
      if digits ≠ [] ∧ digits.all Char.isDigit then
        some (if negative then -(digitsValue digits : Int) else digitsValue digits)
      else none
    else none

/-- The decimal written as digits with at most one point, at least one digit on either side of it,
and an optional exponent. -/
def decimalOfText? (text : List Char) : Option Decimal :=
  let whole := text.takeWhile Char.isDigit
  let (fraction, rest) := match text.dropWhile Char.isDigit with
    | '.' :: rest => (rest.takeWhile Char.isDigit, rest.dropWhile Char.isDigit)
    | rest => ([], rest)
  if whole = [] ∧ fraction = [] then none
  else do
    let exponent ← exponentOfText? rest
    pure ⟨digitsValue (whole ++ fraction), exponent - fraction.length⟩

/-- The magnitude of an unsigned number. -/
def magnitudeOfText? (text : List Char) : Option Nat :=
  let name := text.map Char.toLower
  if name = "inf".toList ∨ name = "infinity".toList then some infinite
  else if name = "nan".toList then some 0x7FC00000
  else (decimalOfText? text).map Decimal.nearest

/-- **The single precision number that a text writes.** -/
def ofText? : List Char → Option Binary32
  | '-' :: text => (magnitudeOfText? text).map (ofMagnitude true)
  | '+' :: text => (magnitudeOfText? text).map (ofMagnitude false)
  | text => (magnitudeOfText? text).map (ofMagnitude false)

end Binary32

end Chainlet
