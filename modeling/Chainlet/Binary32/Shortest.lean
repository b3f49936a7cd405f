import Chainlet.Binary32.Decimal

/-!
# Binary32/Shortest — the fewest digits that read back

For one digit, then two, up to nine, `shortest` takes the two neighbours of a number among the
decimals with that many digits and asks which of them read back as the number. The first count with
a hit wins; of two hits the nearer, and of two equally near the one that `Tie` names. Nine digits
always suffice; behind them stands the number itself, written out exactly.
-/

namespace Chainlet

/-- Which of two equally near decimals is taken. -/
inductive Tie where
  | up
  | toEven
deriving DecidableEq

namespace Binary32

/-- The decimals just below and above a number with `count` digits, and how the number's distance to
the lower one compares with half the gap. -/
structure Neighbours where
  lower : Decimal
  upper : Decimal
  side : Ordering

/-- The power of ten by which all numbers are scaled up before their digits are counted. -/
def scale : Nat := 54

/-- The neighbours of a positive number, given in multiples of `2 ^ -149`. The scaled number has at
least ten digits before the point, so a grid of up to nine digits has a whole step. An upper
neighbour that needs one more digit is a power of ten and is written without its last zero. -/
def neighbours (units count : Nat) : Neighbours :=
  let scaled := units * Nat.pow 10 scale
  let dropped := Decimal.width (scaled >>> 149) - count
  let step := Nat.pow 10 dropped <<< 149
  let exponent : Int := (dropped : Int) - scale
  let next := scaled / step + 1
  { lower := ⟨scaled / step, exponent⟩
    upper := if next = Nat.pow 10 count then ⟨next / 10, exponent + 1⟩ else ⟨next, exponent⟩
    side := compare (2 * (scaled % step)) step }

/-- The neighbour that reads back as the magnitude, the nearer one if both do. -/
def readBack? (tie : Tie) (magnitude : Nat) (n : Neighbours) : Option Decimal :=
  match n.lower.nearest == magnitude, n.upper.nearest == magnitude with
  | false, false => none
  | true, false => some n.lower
  | false, true => some n.upper
  | true, true =>
    match n.side, tie with
    | .lt, _ => some n.lower
    | .gt, _ => some n.upper
    | .eq, .up => some n.upper
    | .eq, .toEven => some (if n.lower.digits % 2 = 0 then n.lower else n.upper)

/-- **The shortest decimal that reads back as a finite number's absolute value.** -/
def shortest (tie : Tie) (x : Binary32) : Decimal :=
  if x.units = 0 then ⟨0, 0⟩
  else
    ([1, 2, 3, 4, 5, 6, 7, 8, 9].findSome? fun count =>
      readBack? tie x.magnitude (neighbours x.units count)).getD ⟨x.units * Nat.pow 5 149, -149⟩

end Binary32

end Chainlet
