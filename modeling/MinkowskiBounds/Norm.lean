import MinkowskiBounds.Scalar

/-!
# Minkowski norms

The norm with exponent `p` of a list of differences is the `p`-th root of the sum of `|δ| ^ p`; with
an infinite exponent it is the largest `|δ|`. Distances are compared in **raised form**, the `p`-th
power (for the Chebyshev norm the distance itself), which spares the root.

## Contents

* `Norm`, `Norm.ofExponent` — which of the four ways of computing an exponent selects
* `Norm.sum` — the raised norm of a list of differences, cut short above a limit
* `Norm.distance` — the raised distance between two points of unbounded space
* `Norm.raise`, `Norm.root` — from a distance to its raised form and back
* `Norm.magnitude` — the norm of a list of separations, as a distance
* `Norm.term` — the raised form of one non-negative separation along one axis
* `Norm.tolerance` — the factor by which a raised distance shrinks under a tolerance
-/

namespace MinkowskiBounds

variable {α : Type} [Scalar α]

/-- A norm, told apart by how it is computed. -/
inductive Norm (α : Type) where
  /-- Exponent two: differences are squared. -/
  | euclidean
  /-- Exponent infinity: the largest difference counts. -/
  | chebyshev
  /-- Exponent one: differences are added up. -/
  | manhattan
  /-- Any other exponent. -/
  | general (p : α)

namespace Norm

/-- The norm that an exponent selects. -/
def ofExponent (p : α) : Norm α :=
  if p == Scalar.two then .euclidean
  else if p == Scalar.infinity then .chebyshev
  else if p == 1 then .manhattan
  else .general p

/-- The exponent of a norm. -/
def exponent : Norm α → α
  | .euclidean => Scalar.two
  | .chebyshev => Scalar.infinity
  | .manhattan => 1
  | .general p => p

/-! ## Sums of differences -/

/-- Takes one more difference into a running total. -/
def accumulate : Norm α → α → α → α
  | .euclidean, total, δ => total + δ * δ
  | .chebyshev, total, δ => Scalar.max total (Scalar.abs δ)
  | .manhattan, total, δ => total + Scalar.abs δ
  | .general p, total, δ => total + Scalar.pow (Scalar.abs δ) p

/-- Takes differences into `total` one by one, and stops at the first total above `limit`. -/
def sumFrom (n : Norm α) (limit total : α) : List α → α
  | [] => total
  | δ :: δs =>
    if limit < n.accumulate total δ then n.accumulate total δ
    else sumFrom n limit (n.accumulate total δ) δs

/--
The raised norm of a list of differences.

A result above `limit` only says that the norm is above it: the differences after the one that
passed the limit are not looked at.
-/
def sum (n : Norm α) (limit : α) (δs : List α) : α := n.sumFrom limit 0 δs

/-- The raised distance between two points; coordinates that only one of them has do not count. -/
def distance (n : Norm α) (limit : α) (x y : List α) : α :=
  n.sum limit (List.zipWith (· - ·) x y)

@[simp] theorem sumFrom_nil (n : Norm α) (limit total : α) : n.sumFrom limit total [] = total := rfl

/-- Below the limit the sum goes on with the new total. -/
theorem sumFrom_cons_of_not_lt {n : Norm α} {limit total δ : α} (δs : List α)
    (h : ¬ limit < n.accumulate total δ) :
    n.sumFrom limit total (δ :: δs) = n.sumFrom limit (n.accumulate total δ) δs := by
  rw [sumFrom, if_neg h]

/-- Above the limit the rest is not looked at. -/
theorem sumFrom_cons_of_lt {n : Norm α} {limit total δ : α} (δs : List α)
    (h : limit < n.accumulate total δ) :
    n.sumFrom limit total (δ :: δs) = n.accumulate total δ := by
  rw [sumFrom, if_pos h]

/-- **A limit that no total exceeds leaves the whole sum.** -/
theorem sumFrom_eq_foldl {n : Norm α} {limit : α} (h : ∀ a : α, ¬ limit < a) :
    ∀ (total : α) (δs : List α), n.sumFrom limit total δs = δs.foldl n.accumulate total
  | _, [] => rfl
  | total, δ :: δs => by
    rw [sumFrom_cons_of_not_lt δs (h _), sumFrom_eq_foldl h, List.foldl_cons]

/-! ## Raised form -/

/-- The raised form of a distance; an infinite distance stays as it is. -/
def raise (n : Norm α) (d : α) : α :=
  match n with
  | .euclidean => d * d
  | .chebyshev => d
  | _ => if Scalar.isInfinite d then d else Scalar.pow d n.exponent

/-- The distance of which `q` is the raised form; an infinite value stays as it is. -/
def root (n : Norm α) (q : α) : α :=
  match n with
  | .euclidean => Scalar.sqrt q
  | .chebyshev => q
  | .manhattan => q
  | .general p => if Scalar.isInfinite q then q else Scalar.pow q (1 / p)

/-- The norm of a list of separations, as a distance. -/
def magnitude (n : Norm α) (δs : List α) : α := n.root (n.sum Scalar.infinity δs)

/-- What a separation along one axis, which is never negative, counts in a raised distance. -/
def term (n : Norm α) (s : α) : α :=
  match n with
  | .euclidean => s * s
  | .manhattan => s
  | _ => Scalar.pow s n.exponent

/--
The factor for comparisons that may be off by the relative tolerance `ε`.

Scaling a raised distance by it is the same as dividing the distance by `1 + ε`.
-/
def tolerance (n : Norm α) (ε : α) : α :=
  match n with
  | .euclidean => 1 / ((1 + ε) * (1 + ε))
  | .chebyshev => if ε == 0 then 1 else 1 / (1 + ε)
  | _ => if ε == 0 then 1 else 1 / Scalar.pow (1 + ε) n.exponent

end Norm

end MinkowskiBounds
