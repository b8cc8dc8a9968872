import MinkowskiBounds.Proofs.Torus.Unwrapped

/-!
# Spaces look the same from both sides

Seen from the second box, or the second point, all differences of coordinates change their signs, and
raw separations change their order as well. No bound and no distance tells the difference: boxes of
numbers are separated alike both ways (`Space.separations_comm`), and points are equally far apart
both ways (`Space.distance_comm`).

On a circle the two ways do not mirror each other exactly. A difference of half a period, or of any
odd number of them, wraps to half a period whatever its sign, so that the two representatives are
only equal in size. What settles it is that wrapping leaves the nearest image in either case, and the
images of one point are as far from the other as its images are from the one.
-/

namespace MinkowskiBounds

open Extended

variable {K : Type} [Field K] [LinearOrder K] [FloorRing K] [Powers K] [IsStrictOrderedRing K]

/-! ## Intervals -/

/-- Bounds on a circle do not depend on which way differences are taken, whatever its sizes. -/
theorem Circle.fold_neg (c : Circle (Extended K)) (lo hi : K) :
    c.fold (num (-hi)) (num (-lo)) = c.fold (num lo) (num hi) := by
  have hside : num (-lo) ≤ (num 0 : Extended K) ∨ (num 0 : Extended K) ≤ num (-hi)
      ↔ num hi ≤ (num 0 : Extended K) ∨ (num 0 : Extended K) ≤ num lo := by
    simp only [num_le_num, neg_nonpos, neg_nonneg]
    exact or_comm
  unfold fold
  rw [← num_zero, abs_num, abs_num, abs_num, abs_num, abs_neg, abs_neg, Bounds.sorted_num,
    Bounds.sorted_num, min_comm |hi|, max_comm |hi|]
  by_cases h : num hi ≤ (num 0 : Extended K) ∨ (num 0 : Extended K) ≤ num lo
  · rw [if_pos h, if_pos (hside.mpr h)]
  · rw [if_neg h, if_neg (hside.not.mpr h), foldAcross, foldAcross, neg_num, neg_num, farther_num,
      farther_num, neg_neg, max_comm hi]

/-- **Intervals of numbers are separated alike both ways**, in order or not. -/
theorem Axis.separation_comm (A : Axis (Extended K)) {I J : Interval (Extended K)} (hI : I.IsNum)
    (hJ : J.IsNum) : A.separation J I = A.separation I J := by
  obtain ⟨lo, hi, rfl⟩ := hI
  obtain ⟨lo', hi', rfl⟩ := hJ
  cases A with
  | line =>
    rw [separation, separation, Interval.separation_num, Interval.separation_num,
      max_comm (lo' - hi), max_comm (hi' - lo)]
  | circle c =>
    rw [separation, separation, Circle.separation, Circle.separation, num_sub, num_sub, num_sub,
      num_sub, ← neg_sub hi lo', ← neg_sub lo hi', Circle.fold_neg]

/-- **Boxes of numbers are separated alike both ways.** -/
theorem Space.separations_comm {space : Space (Extended K)} {a b : Box (Extended K)}
    (hdims : a.dims = b.dims) (ha : a.IsNum) (hb : b.IsNum) :
    space.separations b a = space.separations a b := by
  refine List.ext_getElem? fun i => Option.ext fun s => ?_
  rw [getElem?_separations, getElem?_separations, hdims]
  constructor
  · rintro ⟨A, J, I, hA, hJ, hI, rfl⟩
    exact ⟨A, I, J, hA, hI, hJ,
      A.separation_comm (hb J (List.mem_of_getElem? hJ)) (ha I (List.mem_of_getElem? hI))⟩
  · rintro ⟨A, I, J, hA, hI, hJ, rfl⟩
    exact ⟨A, J, I, hA, hJ, hI,
      A.separation_comm (ha I (List.mem_of_getElem? hI)) (hb J (List.mem_of_getElem? hJ))⟩

/-! ## Points -/

omit [LinearOrder K] [FloorRing K] [Powers K] [IsStrictOrderedRing K] in
/-- A point differs from an image of another as that one's image back differs from it. -/
theorem Circle.sub_image (c : Circle (Extended K)) (k : ℤ) (a b : K) :
    b - c.image k a = -(a - c.image (-k) b) := by
  unfold image
  cases c.full with
  | num full =>
    show b - (a + k * full) = -(a - (b + ((-k : ℤ) : K) * full))
    rw [Int.cast_neg]
    ring
  | inf negative => exact (neg_sub a b).symm
  | nan => exact (neg_sub a b).symm

/-- Wrapped either way, a difference leaves values of the same size. -/
theorem Circle.exists_wraps_of_swap {full : Extended K} (hfull : 0 < full) (a b : K) :
    ∃ w v, (ofPeriod full).wrap (num b - num a) = num w ∧
      (ofPeriod full).wrap (num a - num b) = num v ∧ |w| = |v| := by
  obtain ⟨w, hw, ⟨j, hj⟩, hnearest⟩ := exists_wrap_eq_sub_image hfull b a
  obtain ⟨v, hv, ⟨k, hk⟩, hnearest'⟩ := exists_wrap_eq_sub_image hfull a b
  refine ⟨w, v, hw, hv, le_antisymm ?_ ?_⟩
  · calc |w| ≤ |b - (ofPeriod full).image (-k) a| := hnearest (-k)
      _ = |v| := by rw [sub_image, abs_neg, neg_neg, hk]
  · calc |v| ≤ |a - (ofPeriod full).image (-j) b| := hnearest' (-j)
      _ = |w| := by rw [← hj, sub_image, abs_neg, neg_neg]

theorem Circle.exists_zipWith_wraps_of_swap {periods : List (Extended K)}
    (hpos : ∀ full ∈ periods, 0 < full) (x y : List K) : ∃ ws vs : List K,
    List.zipWith (fun δ c => c.wrap δ) (List.zipWith (· - ·) (y.map num) (x.map num))
        (periods.map ofPeriod) = ws.map num ∧
      List.zipWith (fun δ c => c.wrap δ) (List.zipWith (· - ·) (x.map num) (y.map num))
        (periods.map ofPeriod) = vs.map num ∧
      List.Forall₂ (fun w v => |w| = |v|) ws vs := by
  induction periods generalizing x y with
  | nil => exact ⟨[], [], by simp, by simp, .nil⟩
  | cons full periods ih =>
    match x, y with
    | [], y => exact ⟨[], [], by simp, by simp, .nil⟩
    | a :: x, [] => exact ⟨[], [], by simp, by simp, .nil⟩
    | a :: x, b :: y =>
      obtain ⟨w, v, hw, hv, hwv⟩ := exists_wraps_of_swap (hpos full List.mem_cons_self) a b
      obtain ⟨ws, vs, hws, hvs, hall⟩ := ih (fun f hf => hpos f (List.mem_cons_of_mem full hf)) x y
      exact ⟨w :: ws, v :: vs, congrArg₂ List.cons hw hws, congrArg₂ List.cons hv hvs,
        .cons hwv hall⟩

/-- The space is unbounded, or a torus made from its periods. -/
def Space.IsRegular (space : Space (Extended K)) : Prop :=
  space = .unbounded ∨
    ∃ periods torus, Torus.ofPeriods periods = .ok torus ∧ space = .periodic torus

/-- **Points are equally far apart both ways**, whatever the limit. -/
theorem Space.distance_comm {space : Space (Extended K)} (h : space.IsRegular)
    (n : Norm (Extended K)) (limit : Extended K) (x y : List K) :
    space.distance n limit (y.map num) (x.map num)
      = space.distance n limit (x.map num) (y.map num) := by
  unfold distance
  rcases h with rfl | ⟨periods, torus, ht, rfl⟩
  · have hline : ∀ u v : List K, Space.unbounded.differences (u.map num) (v.map num)
        = (List.zipWith (· - ·) u v).map (num : K → Extended K) := by
      intro u v
      simp only [differences, List.zipWith_map, List.map_zipWith, num_sub]
    have hneg : List.zipWith (· - ·) y x = (List.zipWith (· - ·) x y).map (- ·) := by
      rw [List.map_zipWith, List.zipWith_comm]
      simp only [neg_sub]
    rw [hline, hline, hneg]
    refine n.sum_eq_of_abs_eq limit ?_
    rw [List.forall₂_map_left_iff, List.forall₂_same]
    exact fun δ _ => abs_neg δ
  · obtain ⟨hpos, rfl⟩ := Torus.ofPeriods_eq_ok_iff.mp ht
    obtain ⟨ws, vs, hws, hvs, hall⟩ := Circle.exists_zipWith_wraps_of_swap hpos x y
    rw [differences, differences, hws, hvs]
    exact n.sum_eq_of_abs_eq limit hall

end MinkowskiBounds
