import Mathlib.Order.Bounds.Basic
import MinkowskiBounds.Proofs.Norm.Monotone
import MinkowskiBounds.Proofs.Space.Numbers

/-!
# Images of points on a torus

A point of a torus stands for all points of unbounded space that whole periods along the axes lead to,
its *images*. The raised distance between two points of the torus is the least raised distance in
unbounded space from the one to an image of the other (`Space.isLeast_distance_images`).

Along one axis wrapping picks the nearest image, because what it leaves is at most half a period, and
any other image is a whole period further on or more. As the axes are wrapped each by itself, the
nearest images along all of them make up one point.
-/

namespace MinkowskiBounds

open Extended

variable {K : Type} [Field K] [LinearOrder K] [FloorRing K] [Powers K]

/-! ## Images -/

/-- The coordinate that lies `k` periods further on; where the axis never closes, the same one. -/
def Circle.image (c : Circle (Extended K)) (k : ℤ) (y : K) : K :=
  match c.full with
  | .num full => y + k * full
  | _ => y

/-- The images of coordinates, `ks` periods further on, one number of periods for each axis. -/
def Circle.images (cs : List (Circle (Extended K))) (ks : List ℤ) (y : List K) : List K :=
  List.zipWith (fun c P => c.image P.1 P.2) cs (ks.zip y)

/-- The image of a point, `ks` periods further on, one number of periods for each axis. -/
def Torus.image (torus : Torus (Extended K)) (ks : List ℤ) (y : List K) : List K :=
  Circle.images torus.axes ks y

omit [LinearOrder K] [FloorRing K] [Powers K] in
/-- Only the coordinates that are compared take part in an image. -/
theorem Circle.zipWith_take_images {γ : Type} (f : K → K → γ) (cs : List (Circle (Extended K)))
    (ks : List ℤ) (x y : List K) :
    List.zipWith f (x.take ks.length) (images cs ks (y.take ks.length))
      = List.zipWith f x (images cs ks y) := by
  induction ks generalizing cs x y with
  | nil => cases cs <;> simp [images]
  | cons k ks ih =>
    match cs, x, y with
    | [], _, _ => simp [images]
    | _ :: _, [], _ => simp [images]
    | _ :: _, _ :: _, [] => simp [images]
    | c :: cs, a :: x, b :: y => exact congrArg (_ :: ·) (ih cs x y)

/-! ## One axis -/

variable [IsStrictOrderedRing K]

omit [Powers K] in
/-- A number of at most half a period only grows in size when whole periods are added. -/
theorem abs_le_abs_add_mul {full w : K} (hw : |w| ≤ full / 2) (m : ℤ) : |w| ≤ |w + m * full| := by
  rcases eq_or_ne m 0 with rfl | hm
  · simp
  · have hfull : 0 ≤ full := by linarith [abs_nonneg w]
    have hone : (1 : K) ≤ |(m : K)| := by exact_mod_cast Int.one_le_abs hm
    have hperiods : full ≤ |m * full| := by
      rw [abs_mul, abs_of_nonneg hfull]
      exact le_mul_of_one_le_left hfull hone
    calc |w| ≤ |m * full| - |w| := by linarith
      _ ≤ |m * full + w| := by simpa using abs_sub_abs_le_abs_sub (m * full) (-w)
      _ = |w + m * full| := by rw [add_comm]

/-- **Wrapping picks the nearest image**: what it leaves is the difference from an image, and no
image is nearer. -/
theorem Circle.exists_wrap_eq_sub_image {full : Extended K} (hfull : 0 < full) (a b : K) : ∃ w : K,
    (ofPeriod full).wrap (num a - num b) = num w ∧ (∃ k, a - (ofPeriod full).image k b = w) ∧
      ∀ k, |w| ≤ |a - (ofPeriod full).image k b| := by
  rw [num_sub]
  cases full with
  | num full =>
    obtain ⟨w, k, hw, ⟨hlo, hhi⟩, hk⟩ := exists_wrap_eq (num_lt_num.mp hfull) (a - b)
    refine ⟨w, hw, ⟨k, ?_⟩, ?_⟩
    · show a - (b + k * full) = w
      linarith
    · intro j
      have hj : a - (b + j * full) = w + (k - j : ℤ) * full := by
        rw [Int.cast_sub, sub_mul]
        linarith
      show |w| ≤ |a - (b + j * full)|
      rw [hj]
      exact abs_le_abs_add_mul (abs_le.mpr ⟨hlo.le, hhi⟩) _
  | inf negative => cases negative with
    | false =>
      -- no difference reaches half of an infinite period
      refine ⟨a - b, wrap_of_mem ?_, ⟨0, rfl⟩, fun k => le_rfl⟩
      rw [half_ofPeriod_inf]
      exact ⟨rfl, rfl⟩
    | true => exact absurd hfull Bool.false_ne_true
  | nan => exact absurd hfull Bool.false_ne_true

/-! ## All axes -/

/-- The nearest images along all axes make up one point. -/
theorem Circle.exists_wraps_eq {periods : List (Extended K)} (h : ∀ full ∈ periods, 0 < full)
    (x y : List K) : ∃ ws : List K,
    List.zipWith (fun δ c => c.wrap δ) (List.zipWith (· - ·) (x.map num) (y.map num))
        (periods.map ofPeriod) = ws.map num ∧
    (∃ ks, ks.length = min (min x.length y.length) periods.length ∧
      List.zipWith (· - ·) x (images (periods.map ofPeriod) ks y) = ws) ∧
    ∀ ks, ks.length = min (min x.length y.length) periods.length →
      List.Forall₂ (fun w v => |w| ≤ |v|) ws
        (List.zipWith (· - ·) x (images (periods.map ofPeriod) ks y)) := by
  induction periods generalizing x y with
  | nil => exact ⟨[], by simp [images]⟩
  | cons full periods ih =>
    match x, y with
    | [], y => exact ⟨[], by simp [images]⟩
    | a :: x, [] => exact ⟨[], by simp [images]⟩
    | a :: x, b :: y =>
      obtain ⟨w, hw, ⟨k, hk⟩, hnear⟩ := exists_wrap_eq_sub_image (h full List.mem_cons_self) a b
      obtain ⟨ws, hws, ⟨ks, hlen, hks⟩, hnearer⟩ :=
        ih (fun f hf => h f (List.mem_cons_of_mem full hf)) x y
      have hcount : min (min (a :: x).length (b :: y).length) (full :: periods).length
          = min (min x.length y.length) periods.length + 1 := by
        simp only [List.length_cons]
        omega
      rw [hcount]
      refine ⟨w :: ws, ?_, ⟨k :: ks, congrArg (· + 1) hlen, ?_⟩, ?_⟩
      · exact congrArg₂ List.cons hw hws
      · exact congrArg₂ List.cons hk hks
      · rintro (_ | ⟨j, js⟩) hjs
        · cases hjs
        · exact .cons (hnear j) (hnearer js (Nat.succ.inj hjs))

/--
**The distance on a torus is the least distance to an image.**

For a torus with periods above zero, of which any may be infinite, points with any numbers of
coordinates, and an exponent that is infinite or whose power is monotone: the raised distance on the
torus is the least raised distance in unbounded space between the first coordinates of the one point
and those of an image of the other, over all images and as many coordinates as both points and the
torus have, and an image at that distance exists.
-/
theorem Space.isLeast_distance_images {periods : List (Extended K)} {torus : Torus (Extended K)}
    {p : Extended K} (ht : Torus.ofPeriods periods = .ok torus)
    (hp : p = Scalar.infinity ∨ ∃ q, p = num q ∧ PowMonotone q) (x y : List K) :
    let count := min (min x.length y.length) torus.dims
    IsLeast
      {d | ∃ ks : List ℤ, ks.length = count ∧
        Space.unbounded.distance (.ofExponent p) Scalar.infinity ((x.take count).map num)
          ((torus.image ks (y.take count)).map num) = d}
      ((Space.periodic torus).distance (.ofExponent p) Scalar.infinity (x.map num) (y.map num)) := by
  obtain ⟨hpos, rfl⟩ := Torus.ofPeriods_eq_ok_iff.mp ht
  obtain ⟨op, hop⟩ := (Norm.isMonotone_ofExponent hp).exists_folds
  obtain ⟨ws, hws, ⟨ks, hlen, hks⟩, hnear⟩ := Circle.exists_wraps_eq hpos x y
  intro count
  have hcount : count = min (min x.length y.length) periods.length := by
    simp [count, Torus.dims]
  have htorus : (Space.periodic ⟨periods.map Circle.ofPeriod⟩).distance (.ofExponent p)
      Scalar.infinity (x.map num) (y.map num) = num ((ws.map (|·|)).foldl op 0) := by
    rw [distance, differences, hws, hop.sum_map_num]
  have himage : ∀ js : List ℤ, js.length = count →
      Space.unbounded.distance (.ofExponent p) Scalar.infinity ((x.take count).map num)
        ((Torus.image ⟨periods.map Circle.ofPeriod⟩ js (y.take count)).map num)
      = num (((List.zipWith (· - ·) x (Circle.images (periods.map Circle.ofPeriod) js y)).map
          (|·|)).foldl op 0) := by
    intro js hjs
    have hdiff : ∀ u v : List K, List.zipWith (· - ·) (u.map num) (v.map num)
        = (List.zipWith (· - ·) u v).map num := by
      intro u v
      rw [List.zipWith_map, List.map_zipWith]
      simp only [num_sub]
    rw [distance, differences, hdiff, hop.sum_map_num, ← hjs, Torus.image, Circle.zipWith_take_images]
  rw [htorus]
  constructor
  · refine ⟨ks, hlen.trans hcount.symm, ?_⟩
    rw [himage ks (hlen.trans hcount.symm), hks]
  · rintro _ ⟨js, hjs, rfl⟩
    rw [himage js hjs, num_le_num]
    refine Norm.foldl_le_foldl hop.mono ?_ le_rfl
    rw [List.forall₂_map_left_iff, List.forall₂_map_right_iff]
    exact (hnear js (hjs.trans hcount)).imp fun w v h => ⟨abs_nonneg w, h⟩

/-- Differences of two periods and of half a period, an axis that never closes, and a coordinate that
counts for nothing; with cubes. -/
theorem Space.isLeast_distance_images_cubes :
    let periods : List (Extended ℚ) := [num 10, inf false, num 4]
    let torus : Torus (Extended ℚ) := ⟨periods.map .ofPeriod⟩
    let x : List ℚ := [23, 1, 0, 7]
    let y : List ℚ := [0, 5, 2]
    let n : Norm (Extended ℚ) := .ofExponent (num 3)
    Torus.ofPeriods periods = .ok torus ∧ PowMonotone (3 : ℚ) ∧
    (Space.periodic torus).distance n Scalar.infinity (x.map num) (y.map num) = num 99 ∧
    IsLeast
      {d | ∃ ks : List ℤ, ks.length = 3 ∧
        Space.unbounded.distance n Scalar.infinity ((x.take 3).map num)
          ((torus.image ks (y.take 3)).map num) = d}
      (num 99) := by
  intro periods torus x y n
  have htorus : Torus.ofPeriods periods = .ok torus :=
    Torus.ofPeriods_eq_ok_iff.mpr ⟨by decide +kernel, rfl⟩
  have hpow : PowMonotone (3 : ℚ) := powMonotone_natCast 3
  have hdistance : (Space.periodic torus).distance n Scalar.infinity (x.map num) (y.map num)
      = num 99 := by
    decide +kernel
  have hleast := isLeast_distance_images htorus (.inr ⟨3, rfl, hpow⟩) x y
  exact ⟨htorus, hpow, hdistance, hdistance ▸ hleast⟩

end MinkowskiBounds
