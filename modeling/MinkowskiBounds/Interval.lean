import MinkowskiBounds.Scalar

/-!
# Intervals and bounds

An `Interval` is what a box covers along one axis. `Bounds` are a least and a greatest distance. On
a line, the bounds between two intervals are the gap between them (zero where they overlap) and the
distance between their far ends; a point stands in for an interval in the `OfPoint` forms.
-/

namespace MinkowskiBounds

variable {α : Type} [Scalar α]

/-- A stretch of one axis, from `lo` to `hi`. -/
structure Interval (α : Type) where
  lo : α
  hi : α
deriving Repr

/-- A least and a greatest distance. -/
structure Bounds (α : Type) where
  least : α
  greatest : α
deriving Repr

/-- Two intervals are equal when both ends are, as the scalars compare. -/
instance : BEq (Interval α) where
  beq I J := I.lo == J.lo && I.hi == J.hi

/-! ## Bounds -/

namespace Bounds

/-- Both bounds zero: what no axis at all contributes. -/
def zero : Bounds α := ⟨0, 0⟩

instance : Add (Bounds α) where
  add b c := ⟨b.least + c.least, b.greatest + c.greatest⟩

instance : Sub (Bounds α) where
  sub b c := ⟨b.least - c.least, b.greatest - c.greatest⟩

/-- The larger of both least and of both greatest distances. -/
protected def max (b c : Bounds α) : Bounds α :=
  ⟨Scalar.max b.least c.least, Scalar.max b.greatest c.greatest⟩

/-- Two values in order. -/
def sorted (a b : α) : Bounds α := if b < a then ⟨b, a⟩ else ⟨a, b⟩

/-- Applies `f` to both bounds. -/
def map (f : α → α) (b : Bounds α) : Bounds α := ⟨f b.least, f b.greatest⟩

@[simp] theorem least_add (b c : Bounds α) : (b + c).least = b.least + c.least := rfl

@[simp] theorem greatest_add (b c : Bounds α) : (b + c).greatest = b.greatest + c.greatest := rfl

@[simp] theorem least_sub (b c : Bounds α) : (b - c).least = b.least - c.least := rfl

@[simp] theorem greatest_sub (b c : Bounds α) : (b - c).greatest = b.greatest - c.greatest := rfl

end Bounds

/-! ## Separations on a line -/

namespace Interval

/-- The interval that holds one point. -/
def ofPoint (x : α) : Interval α := ⟨x, x⟩

/-- The interval stretched just as far as it takes to hold `x`. -/
def extend (I : Interval α) (x : α) : Interval α :=
  ⟨if x < I.lo then x else I.lo, if I.hi < x then x else I.hi⟩

/-- The least distance between a point of each interval. -/
def gap (I J : Interval α) : α := Scalar.max 0 (Scalar.max (I.lo - J.hi) (J.lo - I.hi))

/-- The greatest distance between a point of each interval. -/
def reach (I J : Interval α) : α := Scalar.max (I.hi - J.lo) (J.hi - I.lo)

/-- The bounds between two intervals on a line. -/
def separation (I J : Interval α) : Bounds α := ⟨I.gap J, I.reach J⟩

/-- The least distance between a point of the interval and `x`. -/
def gapToPoint (I : Interval α) (x : α) : α := Scalar.max 0 (Scalar.max (I.lo - x) (x - I.hi))

/-- The greatest distance between a point of the interval and `x`. -/
def reachToPoint (I : Interval α) (x : α) : α := Scalar.max (I.hi - x) (x - I.lo)

/-- A point is as far away as the interval that holds nothing else. -/
theorem gap_ofPoint (I : Interval α) (x : α) : I.gap (ofPoint x) = I.gapToPoint x := rfl

/-- A point is at most as far away as the interval that holds nothing else. -/
theorem reach_ofPoint (I : Interval α) (x : α) : I.reach (ofPoint x) = I.reachToPoint x := rfl

end Interval

end MinkowskiBounds
