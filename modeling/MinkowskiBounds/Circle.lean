import MinkowskiBounds.Interval

/-!
# Circles

An axis that closes up after a period is a circle: differences of coordinates count up to multiples
of the period, so no two points are further apart than half of it. An infinite period never closes.

## Contents

* `Circle` — a period and its half
* `Circle.wrap` — the representative of a difference in `(-half, half]`
* `Circle.fold` — the bounds on distances whose differences lie between two raw ones
* `Circle.separation` — the bounds between two intervals on a circle
-/

namespace MinkowskiBounds

variable {α : Type} [Scalar α]

/-- An axis that closes up after `full`; `half` is half of that. -/
structure Circle (α : Type) where
  full : α
  half : α
deriving Repr

/-- Two circles are equal when both their sizes are, as the scalars compare. -/
instance : BEq (Circle α) where
  beq c d := c.full == d.full && c.half == d.half

namespace Circle

/-- The circle of a given period. -/
def ofPeriod (full : α) : Circle α := ⟨full, full / Scalar.two⟩

/-- Brings a value that is at most half a period out of `(-half, half]` back into it. -/
def correct (c : Circle α) (w : α) : α :=
  if w ≤ -c.half then w + c.full
  else if c.half < w then w - c.full
  else w

/--
Reduces a difference of coordinates to `(-half, half]`.

A difference in that range is left alone. From any other the nearest multiple of the period is
taken away, and one more period added or taken where that lands on the wrong end.
-/
def wrap (c : Circle α) (δ : α) : α :=
  if -c.half < δ ∧ δ ≤ c.half then δ
  else c.correct (δ - c.full * Scalar.round (δ / c.full))

/--
Bounds for raw separations that do not pass through zero, given by absolute value.

Separations below half a period stay, those above it are reflected through the period, and where
they lie on both sides of it half a period is the greatest.
-/
def foldApart (c : Circle α) (s : Bounds α) : Bounds α :=
  if s.greatest < c.half then s
  else if c.half < s.least then ⟨c.full - s.greatest, c.full - s.least⟩
  else ⟨Scalar.min s.least (c.full - s.greatest), c.half⟩

/-- The greatest distance for raw separations from `lo` below zero to `hi` above it. -/
def foldAcross (c : Circle α) (lo hi : α) : α :=
  let far := if hi < -lo then -lo else hi
  if c.half < far then c.half else far

/-- The bounds on a circle for raw separations from `lo` to `hi`. -/
def fold (c : Circle α) (lo hi : α) : Bounds α :=
  if hi ≤ 0 ∨ 0 ≤ lo then c.foldApart (.sorted (Scalar.abs lo) (Scalar.abs hi))
  else ⟨0, c.foldAcross lo hi⟩

/-- The bounds between two intervals on a circle. -/
def separation (c : Circle α) (I J : Interval α) : Bounds α := c.fold (I.lo - J.hi) (I.hi - J.lo)

/-- A difference within half a period is its own representative. -/
theorem wrap_of_mem {c : Circle α} {δ : α} (h : -c.half < δ ∧ δ ≤ c.half) : c.wrap δ = δ :=
  if_pos h

end Circle

end MinkowskiBounds
