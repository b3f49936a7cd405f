/-!
# Source/Span — a range of bytes of a source

A `Span` counts bytes of the UTF-8 encoding, from its first byte to the one past its last. A span
whose end lies before its start is a value like any other and is empty.
-/

namespace Chainlet

/-- The bytes from `start` up to, but not including, `stop`. -/
structure Span where
  start : Nat
  stop : Nat
deriving DecidableEq, Repr, Inhabited

namespace Span

/-- The number of bytes, zero for a span that ends before it starts. -/
def length (s : Span) : Nat := s.stop - s.start

def isEmpty (s : Span) : Bool := s.length == 0

theorem isEmpty_iff (s : Span) : s.isEmpty = true ↔ s.stop ≤ s.start := by
  simp [isEmpty, length, Nat.sub_eq_zero_iff_le]

/-- Where a text stands that is not part of the source. -/
def nowhere : Span := ⟨0, 0⟩

end Span

end Chainlet
