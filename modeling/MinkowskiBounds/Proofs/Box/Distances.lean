import MinkowskiBounds.Proofs.Norm.Limit
import MinkowskiBounds.Proofs.Norm.Raise
import MinkowskiBounds.Proofs.Space.Extremes
import MinkowskiBounds.Proofs.Space.Symmetry

/-!
# Distances of boxes

Boxes measure their distances in unbounded space by themselves: each bound of the separations is
streamed through the norm. Where separations are their own absolute values, this comes to the raised
bounds that are folded from the separations as a whole (`Norm.root_foldl_join`).

Over the real numbers, for every exponent above zero, infinity included, these distances are the least
and the greatest between two points of the boxes (`Box.extremes_distances`), because roots keep the
order. A point is measured as the box that holds nothing else, which makes its distances exact as well
(`Box.extremes_distancesToPoint`).
-/

namespace MinkowskiBounds

open Extended

section

variable {α : Type} [Scalar α] {n : Norm α}

/-! ## Streaming separations -/

/-- The separation is its own absolute value, on both sides. -/
def Bounds.AbsEq (s : Bounds α) : Prop :=
  Scalar.abs s.least = s.least ∧ Scalar.abs s.greatest = s.greatest

/-- Taking in a separation is taking in each of its sides. -/
theorem Norm.join_eq_accumulate {total s : Bounds α} (hs : s.AbsEq) :
    n.join total s = ⟨n.accumulate total.least s.least, n.accumulate total.greatest s.greatest⟩ := by
  obtain ⟨hleast, hgreatest⟩ := hs
  cases n with
  | euclidean => rfl
  | chebyshev =>
    simp only [accumulate, hleast, hgreatest]
    rfl
  | manhattan =>
    simp only [accumulate, hleast, hgreatest]
    rfl
  | general p =>
    simp only [accumulate, hleast, hgreatest]
    rfl

theorem Norm.foldl_join_eq_accumulate {ss : List (Bounds α)} (hss : ∀ s ∈ ss, s.AbsEq)
    (total : Bounds α) :
    ss.foldl n.join total = ⟨(ss.map Bounds.least).foldl n.accumulate total.least,
      (ss.map Bounds.greatest).foldl n.accumulate total.greatest⟩ := by
  induction ss generalizing total with
  | nil => rfl
  | cons s ss ih =>
    rw [List.foldl_cons, n.join_eq_accumulate (hss s List.mem_cons_self),
      ih fun r hr => hss r (List.mem_cons_of_mem s hr)]
    rfl

/-- **The roots of the bounds folded from separations are the distances of the boxes** where
separations are their own absolute values and nothing is above infinity. -/
theorem Norm.root_foldl_join (n : Norm α) {a b : Box α} (hinf : ∀ x : α, ¬ Scalar.infinity < x)
    (habs : ∀ s ∈ Space.unbounded.separations a b, s.AbsEq) :
    n.root ((Space.unbounded.separations a b).foldl n.join .zero).least = a.minDistance n b ∧
      n.root ((Space.unbounded.separations a b).foldl n.join .zero).greatest
        = a.maxDistance n b := by
  rw [foldl_join_eq_accumulate habs, Space.separations_unbounded, List.map_zipWith,
    List.map_zipWith]
  constructor
  · rw [Box.minDistance, magnitude, sum, sumFrom_eq_foldl hinf]
    rfl
  · rw [Box.maxDistance, magnitude, sum, sumFrom_eq_foldl hinf]
    rfl

/-! ## Points -/

namespace Box

/-- The distances between a point and the points of a box. -/
def distancesToPoint (n : Norm α) (b : Box α) (x : List α) : Set α :=
  {d | ∃ z, b.Holds z ∧ n.root (n.distance Scalar.infinity x z) = d}

/-- **A point is measured as the box that holds nothing else**, in any arithmetic. -/
theorem minDistance_ofPoint (n : Norm α) (b : Box α) (x : List α) :
    b.minDistance n (ofPoint x) = b.minDistanceToPoint n x := by
  rw [minDistance, ofPoint, List.zipWith_map_right]
  rfl

theorem maxDistance_ofPoint (n : Norm α) (b : Box α) (x : List α) :
    b.maxDistance n (ofPoint x) = b.maxDistanceToPoint n x := by
  rw [maxDistance, ofPoint, List.zipWith_map_right]
  rfl

end Box

end

/-! ## Boxes of numbers -/

section

variable {K : Type} [Field K] [LinearOrder K] [FloorRing K] [Powers K]

theorem Interval.holds_ofPoint_iff {v : K} {x : Extended K} :
    (ofPoint (num v)).Holds x ↔ num v = x := by
  constructor
  · rintro ⟨hlo, hhi⟩
    exact eq_of_le_of_ge hlo hhi
  · rintro rfl
    exact ⟨num_le_num.mpr le_rfl, num_le_num.mpr le_rfl⟩

theorem Box.holds_ofPoint_iff {x : List K} {z : List (Extended K)} :
    (ofPoint (x.map num)).Holds z ↔ x.map num = z := by
  rw [Holds, ofPoint, ← List.forall₂_eq_eq_eq, List.map_map, List.forall₂_map_left_iff,
    List.forall₂_map_left_iff]
  exact ⟨.imp fun _ _ => Interval.holds_ofPoint_iff.mp, .imp fun _ _ => Interval.holds_ofPoint_iff.mpr⟩

omit [Field K] [FloorRing K] [Powers K] in
theorem Box.proper_ofPoint (x : List K) : (ofPoint (x.map num)).Proper := by
  intro I hI
  rw [ofPoint, List.map_map] at hI
  obtain ⟨v, -, rfl⟩ := List.mem_map.mp hI
  exact ⟨v, v, rfl, le_rfl⟩

variable [IsStrictOrderedRing K] {a b : Box (Extended K)}

/-- Between boxes in order no separation is below zero. -/
theorem Space.Orderly.absEq {space : Space (Extended K)} (h : space.Orderly a b)
    (hfit : space.Fits a b) : ∀ s ∈ space.separations a b, s.AbsEq := by
  intro s hs
  obtain ⟨l, g, hl, hg, rfl⟩ := h.exists_of_mem_separations hfit s hs
  exact ⟨congrArg num (abs_of_nonneg hl), congrArg num (abs_of_nonneg hg)⟩

/-- Boxes are measured alike both ways. -/
theorem Box.distances_comm (n : Norm (Extended K)) (ha : a.Proper) (hb : b.Proper)
    (hdims : a.dims = b.dims) :
    b.minDistance n a = a.minDistance n b ∧ b.maxDistance n a = a.maxDistance n b := by
  obtain ⟨hmin, hmax⟩ := n.root_foldl_join not_inf_lt
    ((Space.orderly_unbounded ha hb).absEq ⟨hdims, rfl⟩)
  obtain ⟨hmin', hmax'⟩ := n.root_foldl_join not_inf_lt
    ((Space.orderly_unbounded hb ha).absEq ⟨hdims.symm, rfl⟩)
  rw [← hmin, ← hmax, ← hmin', ← hmax', Space.separations_comm hdims ha.isNum hb.isNum]
  exact ⟨rfl, rfl⟩

end

/-! ## Least and greatest distances -/

namespace Box

variable {a b : Box (Extended ℝ)} {p : Extended ℝ}

/-- **The distances of two boxes are the least and the greatest between their points.** -/
theorem extremes_distances (hp : 0 < p) (ha : a.Proper) (hb : b.Proper) (hdims : a.dims = b.dims) :
    IsLeast ((Norm.ofExponent p).root '' Space.unbounded.distances (.ofExponent p) a b)
        (a.minDistance (.ofExponent p) b) ∧
      IsGreatest ((Norm.ofExponent p).root '' Space.unbounded.distances (.ofExponent p) a b)
        (a.maxDistance (.ofExponent p) b) := by
  have hfit : Space.unbounded.Fits a b := ⟨hdims, rfl⟩
  have horderly := Space.orderly_unbounded ha hb
  obtain ⟨⟨hleast, hlower⟩, hgreatest, hupper⟩ :=
    Space.extremes_bounds (Norm.isMonotone_ofExponent_real hp) hfit horderly
  obtain ⟨hmin, hmax⟩ := (Norm.ofExponent p).root_foldl_join not_inf_lt (horderly.absEq hfit)
  -- what is at least the least distance is defined, and no defined sum of sizes is below zero
  have hnonneg : ∀ d ∈ Space.unbounded.distances (.ofExponent p) a b, 0 ≤ d := by
    intro d hd
    have hdefined := (ordered.defined_of_le (hlower hd)).2
    obtain ⟨x, y, -, -, rfl⟩ := hd
    exact (growing powersNonneg_real).sum_nonneg hdefined
  have hroot := Norm.raisesFaithfully_ofExponent hp
  rw [← hmin, ← hmax]
  refine ⟨⟨⟨_, hleast, rfl⟩, ?_⟩, ⟨_, hgreatest, rfl⟩, ?_⟩
  · rintro _ ⟨d, hd, rfl⟩
    exact hroot.root_le_root (hnonneg _ hleast) (hlower hd)
  · rintro _ ⟨d, hd, rfl⟩
    exact hroot.root_le_root (hnonneg d hd) (hupper hd)

theorem image_distances_ofPoint (n : Norm (Extended ℝ)) (x : List ℝ) (b : Box (Extended ℝ)) :
    n.root '' Space.unbounded.distances n (ofPoint (x.map num)) b
      = b.distancesToPoint n (x.map num) := by
  ext d
  constructor
  · rintro ⟨_, ⟨y, z, hy, hz, rfl⟩, rfl⟩
    obtain rfl := holds_ofPoint_iff.mp hy
    exact ⟨z, hz, rfl⟩
  · rintro ⟨z, hz, rfl⟩
    exact ⟨_, ⟨_, z, holds_ofPoint_iff.mpr rfl, hz, rfl⟩, rfl⟩

/--
**The distances between a box and a point are exact.**

For a box with ends in order, a point with as many coordinates, and any exponent above zero, infinity
included: the least and the greatest distance that the box has to the point are the least and the
greatest distance between the point and a point of the box, and both are attained. They are also the
distances of the box to the box that holds this point alone.
-/
theorem extremes_distancesToPoint (hp : 0 < p) (hb : b.Proper) {x : List ℝ}
    (hdims : x.length = b.dims) :
    let n := Norm.ofExponent p
    (IsLeast (b.distancesToPoint n (x.map num)) (b.minDistanceToPoint n (x.map num)) ∧
      IsGreatest (b.distancesToPoint n (x.map num)) (b.maxDistanceToPoint n (x.map num))) ∧
    b.minDistanceToPoint n (x.map num) = b.minDistance n (ofPoint (x.map num)) ∧
    b.maxDistanceToPoint n (x.map num) = b.maxDistance n (ofPoint (x.map num)) := by
  intro n
  have hx := proper_ofPoint x
  have hdims' : (ofPoint (x.map num)).dims = b.dims := by
    rw [← hdims, dims, ofPoint, List.length_map, List.length_map]
  obtain ⟨hmin, hmax⟩ := distances_comm n hx hb hdims'
  rw [← minDistance_ofPoint, ← maxDistance_ofPoint, hmin, hmax, ← image_distances_ofPoint]
  exact ⟨extremes_distances hp hx hb hdims', rfl, rfl⟩

/-- A point below one interval and inside the other: 4 from the box, and 13 from its farthest corner. -/
theorem extremes_distancesToPoint_euclidean :
    let b : Box (Extended ℝ) := ⟨[⟨num 1, num 2⟩, ⟨num (-11), num 5⟩]⟩
    let x : List ℝ := [-3, 1]
    let n : Norm (Extended ℝ) := .ofExponent (num 2)
    (0 : Extended ℝ) < num 2 ∧ b.Proper ∧ x.length = b.dims ∧
    IsLeast (b.distancesToPoint n (x.map num)) (num 4) ∧
    IsGreatest (b.distancesToPoint n (x.map num)) (num 13) ∧
    b.minDistance n (ofPoint (x.map num)) = num 4 ∧
    b.maxDistance n (ofPoint (x.map num)) = num 13 := by
  intro b x n
  have hp : (0 : Extended ℝ) < num 2 := num_lt_num.mpr two_pos
  have hb : b.Proper := proper_map [(1, 2), (-11, 5)] (by norm_num)
  obtain ⟨⟨hleast, hgreatest⟩, hmin, hmax⟩ :=
    extremes_distancesToPoint hp hb (show x.length = b.dims from rfl)
  have hn : n = .euclidean := by
    rw [show n = .ofExponent (num 2) from rfl, ← num_two, Norm.ofExponent_two]
  have hmagnitude : ∀ v w r : ℝ, 0 ≤ r → v * v + w * w = r * r →
      Norm.euclidean.magnitude [num v, num w] = num r := by
    intro v w r hr hvw
    rw [Norm.magnitude, Norm.sum, Norm.sumFrom_eq_foldl ordered.not_infinity_lt]
    show Scalar.sqrt (num (0 + v * v + w * w)) = num r
    rw [zero_add, hvw, sqrt_num (mul_self_nonneg r), Real.sqrt_mul_self hr]
  have hfour : b.minDistanceToPoint n (x.map num) = num 4 := by
    rw [hn, minDistanceToPoint, ← hmagnitude 4 0 4 (by norm_num) (by norm_num)]
    simp only [b, x, List.map_cons, List.map_nil, List.zipWith_cons_cons, List.zipWith_nil_right,
      Interval.gapToPoint, ← num_zero, num_sub, max_num]
    norm_num
  have hthirteen : b.maxDistanceToPoint n (x.map num) = num 13 := by
    rw [hn, maxDistanceToPoint, ← hmagnitude 5 12 13 (by norm_num) (by norm_num)]
    simp only [b, x, List.map_cons, List.map_nil, List.zipWith_cons_cons, List.zipWith_nil_right,
      Interval.reachToPoint, num_sub, max_num]
    norm_num
  rw [hfour] at hleast hmin
  rw [hthirteen] at hgreatest hmax
  exact ⟨hp, hb, rfl, hleast, hgreatest, hmin.symm, hmax.symm⟩

end Box

end MinkowskiBounds
