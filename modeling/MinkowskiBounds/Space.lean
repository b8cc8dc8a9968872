import MinkowskiBounds.Box
import MinkowskiBounds.Torus

/-!
# Spaces

Where points and boxes lie: in unbounded space, or on a torus. A space measures the distance between
two points, and bounds the distances between the points of two boxes, axis by axis or over all axes.

## Contents

* `Space.checkDims` — whether boxes with this many axes can be measured
* `Space.distance` — the raised distance between two points
* `Space.separation`, `Space.axisBounds` — the bounds along one axis, plain and raised
* `Space.chebyshevBounds`, `Space.bounds` — the bounds over all axes

## Order of reading

Along each axis the first box is read before the second and both before the torus, so that the
failure to find an axis names the first of these that lacks it.
-/

namespace MinkowskiBounds

variable {α : Type} [Scalar α]

/-- Where points and boxes lie. -/
inductive Space (α : Type) where
  /-- Every axis is an endless line. -/
  | unbounded
  /-- Every axis closes up. -/
  | periodic (torus : Torus α)
deriving Repr

namespace Space

/-- Fails where a torus does not have as many axes as the boxes to be measured. -/
def checkDims : Space α → Nat → Except Failure Unit
  | .unbounded, _ => .ok ()
  | .periodic torus, dims =>
    if torus.dims = dims then .ok () else .error (.torusMismatch dims torus.dims)

/-! ## Points -/

/-- The differences of two points, coordinate by coordinate. -/
def differences : Space α → List α → List α → List α
  | .unbounded, x, y => List.zipWith (· - ·) x y
  | .periodic torus, x, y =>
    List.zipWith (fun δ circle => circle.wrap δ) (List.zipWith (· - ·) x y) torus.axes

/--
The raised distance between two points; a result above `limit` only says that it is above it.

Coordinates that only one of the points has do not count, nor those beyond the axes of a torus.
-/
def distance (space : Space α) (n : Norm α) (limit : α) (x y : List α) : α :=
  n.sum limit (space.differences x y)

/-! ## Boxes -/

/-- The bounds between two intervals along one axis. -/
def separate : Space α → Nat → Interval α → Interval α → Except Failure (Bounds α)
  | .unbounded, _, I, J => .ok (I.separation J)
  | .periodic torus, axis, I, J => (torus.circle axis).map (·.separation I J)

/-- The bounds between two boxes along one axis. -/
def separation (space : Space α) (a b : Box α) (axis : Nat) : Except Failure (Bounds α) := do
  let I ← a.interval axis
  let J ← b.interval axis
  space.separate axis I J

/-- What one axis contributes to the raised bounds between two boxes. -/
def axisBounds (space : Space α) (n : Norm α) (a b : Box α) (axis : Nat) :
    Except Failure (Bounds α) := do
  return (← space.separation a b axis).map n.term

/-- The Chebyshev bounds between two boxes: on both sides the largest over the axes of the first. -/
def chebyshevBounds (space : Space α) (a b : Box α) : Except Failure (Bounds α) :=
  (List.range a.dims).foldlM
    (fun total axis => return total.max (← space.separation a b axis)) Bounds.zero

/-- The raised bounds between two boxes: what each axis of the first contributes, added up. -/
def summedBounds (space : Space α) (n : Norm α) (a b : Box α) : Except Failure (Bounds α) :=
  (List.range a.dims).foldlM
    (fun total axis => return total + (← space.axisBounds n a b axis)) Bounds.zero

/-- The raised bounds between two boxes in any norm. -/
def bounds (space : Space α) (n : Norm α) (a b : Box α) : Except Failure (Bounds α) :=
  match n with
  | .chebyshev => space.chebyshevBounds a b
  | _ => space.summedBounds n a b

/-! ## Small facts -/

/-- In unbounded space, distances are those of the norm itself. -/
theorem distance_unbounded (n : Norm α) (limit : α) (x y : List α) :
    Space.unbounded.distance n limit x y = n.distance limit x y := rfl

omit [Scalar α] in
/-- **A space can measure boxes unless it is a torus with another number of axes.** -/
theorem checkDims_eq_ok_iff {space : Space α} {dims : Nat} :
    space.checkDims dims = .ok () ↔ ∀ torus, space = .periodic torus → torus.dims = dims := by
  cases space with
  | unbounded => simp [checkDims]
  | periodic torus => simp [checkDims]

/-- **Two boxes can be separated along every axis that they and the space have.** -/
theorem exists_separation {space : Space α} {a b : Box α} {axis : Nat} (hab : a.dims = b.dims)
    (hs : space.checkDims a.dims = .ok ()) (h : axis < a.dims) :
    ∃ s, space.separation a b axis = .ok s := by
  obtain ⟨I, hI⟩ := Box.exists_interval h
  obtain ⟨J, hJ⟩ := Box.exists_interval (hab ▸ h : axis < b.dims)
  rw [separation, hI, hJ]
  cases space with
  | unbounded => exact ⟨_, rfl⟩
  | periodic torus =>
    have ht : torus.dims = a.dims := checkDims_eq_ok_iff.mp hs torus rfl
    obtain ⟨c, hc⟩ := Torus.exists_circle (ht ▸ h : axis < torus.dims)
    exact ⟨c.separation I J, by simp [bind, Except.bind, separate, hc, Except.map]⟩

end Space

end MinkowskiBounds
