/-!
# Scalars

The arithmetic in which coordinates and distances are computed. Everything else in this library is
written over `Scalar α` and assumes **no law** of it, so that one text can be read with machine
numbers, where each operation rounds, and with exact or extended numbers, where laws hold.

## Contents

* `Scalar` — the operations: ring operations, comparisons, `abs`, `round`, `sqrt`, `pow`, infinity
* `Scalar.max`, `Scalar.min` — the larger and the smaller of two, where an operand that differs from
  itself (not a number) yields to the other
* `Scalar.isInfinite`, `Scalar.two`
-/

namespace MinkowskiBounds

/-- The operations on coordinates and distances. -/
class Scalar (α : Type) extends
    Zero α, One α, Add α, Sub α, Mul α, Div α, Neg α, BEq α, LT α, LE α where
  /-- The value above all finite ones; as an exponent it selects the Chebyshev norm. -/
  infinity : α
  /-- The absolute value. -/
  abs : α → α
  /-- The nearest whole number; a half goes away from zero. -/
  round : α → α
  /-- The square root. -/
  sqrt : α → α
  /-- The first argument to the power of the second. -/
  pow : α → α → α
  /-- `<` can be decided. -/
  decideLT : DecidableLT α
  /-- `≤` can be decided. -/
  decideLE : DecidableLE α

namespace Scalar

variable {α : Type} [Scalar α]

instance : DecidableLT α := decideLT

instance : DecidableLE α := decideLE

/-- The number two: the exponent of the Euclidean norm, and what a period is halved by. -/
def two : α := 1 + 1

/-- The larger of two values; one that differs from itself yields to the other. -/
def max (a b : α) : α := if a < b || a != a then b else a

/-- The smaller of two values; one that differs from itself yields to the other. -/
def min (a b : α) : α := if b < a || a != a then b else a

/-- Whether the value is infinite, of either sign. -/
def isInfinite (a : α) : Bool := abs a == infinity

end Scalar

end MinkowskiBounds
