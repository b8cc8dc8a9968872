import MinkowskiBounds.Failure
import MinkowskiBounds.Interval
import MinkowskiBounds.Norm

/-!
# Boxes

A box is the product of one interval per axis. Nothing asks that `lo ≤ hi`: a box with its ends the
wrong way round is measured by the same formulas.

## Contents

* `Box.ofEnds`, `Box.ofPoint`, `Box.bounding` — boxes from their ends, one point, several points
* `Box.interval` — the interval along one axis, or the failure to find that axis
* `Box.volume`
* `Box.minDistance`, `Box.maxDistance` and their `ToPoint` forms — distances in unbounded space
-/

namespace MinkowskiBounds

variable {α : Type} [Scalar α]

/-- An axis-aligned box. -/
structure Box (α : Type) where
  axes : List (Interval α)
deriving Repr

/-- Two boxes are equal when they have equally many axes and equal intervals on each. -/
instance : BEq (Box α) where
  beq a b := a.axes == b.axes

namespace Box

/-! ## Making boxes -/

/-- The box with the given lower and upper ends, of which there are equally many. -/
def ofEnds (lows highs : List α) : Except Failure (Box α) :=
  if lows.length = highs.length then .ok ⟨List.zipWith Interval.mk lows highs⟩
  else .error (.unequalEnds lows.length highs.length)

/-- The box that holds one point. -/
def ofPoint (x : List α) : Box α := ⟨x.map Interval.ofPoint⟩

/-- The box without axes. -/
def empty : Box α := ⟨[]⟩

/-- Stretches intervals to hold the coordinates of `x`; those that `x` lacks stay as they are. -/
def extendAxes : List (Interval α) → List α → List (Interval α)
  | I :: Is, x :: xs => I.extend x :: extendAxes Is xs
  | Is, _ => Is

/-- The box stretched just as far as it takes to hold `x`. -/
def extend (b : Box α) (x : List α) : Box α := ⟨extendAxes b.axes x⟩

/-- The smallest box that holds all of the points, with the axes of the first one. -/
def bounding : List (List α) → Box α
  | [] => empty
  | x :: xs => xs.foldl extend (ofPoint x)

/-! ## Reading boxes -/

/-- The number of axes. -/
def dims (b : Box α) : Nat := b.axes.length

/-- The lower ends. -/
def lows (b : Box α) : List α := b.axes.map Interval.lo

/-- The upper ends. -/
def highs (b : Box α) : List α := b.axes.map Interval.hi

/-- The interval along an axis. -/
def interval (b : Box α) (axis : Nat) : Except Failure (Interval α) :=
  match b.axes[axis]? with
  | some I => .ok I
  | none => .error (.indexOutOfRange b.dims axis)

/-- The product of the lengths of all sides; one where there is none. -/
def volume (b : Box α) : α := b.axes.foldl (fun v I => v * (I.hi - I.lo)) 1

/-! ## Distances in unbounded space -/

/-- The least distance between a point of the box and `x`. -/
def minDistanceToPoint (n : Norm α) (b : Box α) (x : List α) : α :=
  n.magnitude (List.zipWith Interval.gapToPoint b.axes x)

/-- The greatest distance between a point of the box and `x`. -/
def maxDistanceToPoint (n : Norm α) (b : Box α) (x : List α) : α :=
  n.magnitude (List.zipWith Interval.reachToPoint b.axes x)

/-- The least distance between a point of each box, over the axes that both have. -/
def minDistance (n : Norm α) (a b : Box α) : α :=
  n.magnitude (List.zipWith Interval.gap a.axes b.axes)

/-- The greatest distance between a point of each box, over the axes that both have. -/
def maxDistance (n : Norm α) (a b : Box α) : α :=
  n.magnitude (List.zipWith Interval.reach a.axes b.axes)

/-! ## Small facts -/

omit [Scalar α] in
/-- **An axis can be read exactly when it is below the number of axes.** -/
theorem interval_eq_ok_iff {b : Box α} {axis : Nat} {I : Interval α} :
    b.interval axis = .ok I ↔ b.axes[axis]? = some I := by
  unfold interval
  split
  · next h => rw [h, Except.ok.injEq, Option.some.injEq]
  · next h => simp [h]

omit [Scalar α] in
/-- An axis below the number of axes can be read. -/
theorem exists_interval {b : Box α} {axis : Nat} (h : axis < b.dims) :
    ∃ I, b.interval axis = .ok I :=
  ⟨_, interval_eq_ok_iff.mpr (List.getElem?_eq_getElem h)⟩

omit [Scalar α] in
/-- Any other axis fails, naming the number of axes and the one asked for. -/
theorem interval_of_ge {b : Box α} {axis : Nat} (h : b.dims ≤ axis) :
    b.interval axis = .error (.indexOutOfRange b.dims axis) := by
  unfold interval
  rw [List.getElem?_eq_none h]

theorem length_extendAxes : ∀ (Is : List (Interval α)) (x : List α),
    (extendAxes Is x).length = Is.length
  | [], _ => by simp [extendAxes]
  | _ :: _, [] => by simp [extendAxes]
  | I :: Is, x :: xs => by simp [extendAxes, length_extendAxes Is xs]

@[simp] theorem dims_extend (b : Box α) (x : List α) : (b.extend x).dims = b.dims :=
  length_extendAxes b.axes x

/-- A bounding box has the axes of its first point. -/
theorem dims_bounding_cons (x : List α) (xs : List (List α)) :
    (bounding (x :: xs)).dims = x.length := by
  have h : ∀ (ys : List (List α)) (b : Box α), (ys.foldl extend b).dims = b.dims := by
    intro ys
    induction ys with
    | nil => intro b; rfl
    | cons y ys ih => intro b; rw [List.foldl_cons, ih, dims_extend]
  rw [bounding, h]
  simp [dims, ofPoint]

end Box

end MinkowskiBounds
