/-!
# Binary32/Basic — single precision numbers as exact fractions

A `Binary32` is its thirty-two bits. A finite one is an integral multiple of `2 ^ -149`, the least
positive value: `Binary32.units` counts them, so that every comparison and every rounding is done on
natural numbers. `ofRatio` is the nearest single precision number to a fraction, the even one of
two that are equally near.
-/

namespace Chainlet

/-- A single precision number, given by its bits: sign, eight bits of exponent, twenty-three of
fraction. -/
structure Binary32 where
  bits : UInt32
deriving DecidableEq, Repr, Inhabited

namespace Binary32

/-- Whether the sign bit is set. -/
def isNegative (x : Binary32) : Bool := 0x80000000 ≤ x.bits

/-- The bits below the sign, in the order of the absolute values. -/
def magnitude (x : Binary32) : Nat := x.bits.toNat % 0x80000000

/-- The magnitude of an infinity; a greater one is no number. -/
def infinite : Nat := 0x7F800000

def isNaN (x : Binary32) : Bool := infinite < x.magnitude

def isInfinite (x : Binary32) : Bool := x.magnitude == infinite

def isFinite (x : Binary32) : Bool := x.magnitude < infinite

/-- The number with a sign and a magnitude. -/
def ofMagnitude (negative : Bool) (magnitude : Nat) : Binary32 :=
  ⟨UInt32.ofNat (magnitude + if negative then 0x80000000 else 0)⟩

/-- The absolute value of a finite number, in multiples of `2 ^ -149`. -/
def units (x : Binary32) : Nat :=
  let exponent := x.magnitude >>> 23
  let fraction := x.magnitude % 0x800000
  if exponent = 0 then fraction else (fraction + 0x800000) <<< (exponent - 1)

/-! ## Rounding -/

/-- The nearest natural number to a fraction, the even one of two that are equally near. -/
def roundToEven (numerator denominator : Nat) : Nat :=
  let quotient := numerator / denominator
  let remainder := 2 * (numerator % denominator)
  if remainder < denominator then quotient
  else if denominator < remainder then quotient + 1
  else quotient + quotient % 2

/-- The magnitude of the nearest number to a fraction: an exponent such that twenty-four bits are
left, or fewer at the least one, then those bits rounded. A carry out of them is a carry into the
exponent, and past the greatest finite number stands infinity. -/
def nearestMagnitude (numerator denominator : Nat) : Nat :=
  let exponent := ((numerator <<< 149) / denominator).log2 - 23
  let bits := roundToEven (numerator <<< 149) (denominator <<< exponent)
  min ((exponent <<< 23) + bits) infinite

/-- **The nearest number to a fraction.** -/
def ofRatio (negative : Bool) (numerator denominator : Nat) : Binary32 :=
  ofMagnitude negative (nearestMagnitude numerator denominator)

end Binary32

end Chainlet
