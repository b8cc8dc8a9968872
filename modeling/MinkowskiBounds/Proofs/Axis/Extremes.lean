import Mathlib.Order.Bounds.Basic
import Mathlib.Order.Interval.Set.Basic
import MinkowskiBounds.Proofs.Space.Numbers

/-!
# Exact bounds along one axis

The separation of two intervals along an axis is the least and the greatest distance between their
points, on a line wherever they lie and on a circle within one period of each other.

A distance depends on how far two points are apart on the line, and these sizes fill the stretch from
the gap between the intervals to their reach. On a line this is all. On a circle the sizes run over
the ridge, and the bounds are its least and its greatest height above that stretch: what is stated
apart for differences on one side of zero and across it is one fold of the bounds on a line
(`Circle.separation_eq_foldApart`).
-/

namespace MinkowskiBounds

open Extended

/-! ## Distances along an axis -/

section

variable {α : Type} [Scalar α]

/-- The point lies in the interval. -/
def Interval.Holds (I : Interval α) (x : α) : Prop := I.lo ≤ x ∧ x ≤ I.hi

/-- The distance between two coordinates. -/
def Axis.distance (A : Axis α) (x y : α) : α := Scalar.abs (A.wrap (x - y))

/-- The distances between the points of two intervals. -/
def Axis.distances (A : Axis α) (I J : Interval α) : Set α :=
  {d | ∃ x y, I.Holds x ∧ J.Holds y ∧ A.distance x y = d}

theorem Axis.distance_mem_distances {A : Axis α} {I J : Interval α} {x y : α} (hx : I.Holds x)
    (hy : J.Holds y) : A.distance x y ∈ A.distances I J := ⟨x, y, hx, hy, rfl⟩

end

variable {K : Type} [Field K] [LinearOrder K] [FloorRing K] [Powers K] {A : Axis (Extended K)}
  {I J : Interval (Extended K)} {a b c d full : K}

/-- The two numbers are the bounds along the axis, and the least and the greatest distance. -/
structure Axis.Extremes (A : Axis (Extended K)) (I J : Interval (Extended K)) (s : K × K) :
    Prop where
  separation : A.separation I J = ⟨num s.1, num s.2⟩
  least : IsLeast (A.distances I J) (num s.1)
  greatest : IsGreatest (A.distances I J) (num s.2)

/-- Both intervals have their ends in order, and on a circle they lie within one period. -/
inductive Axis.Orderly : Axis (Extended K) → Interval (Extended K) → Interval (Extended K) → Prop
  | line {a b c d : K} (hab : a ≤ b) (hcd : c ≤ d) :
    Orderly .line ⟨num a, num b⟩ ⟨num c, num d⟩
  | circle {full a b c d : K} (hfull : 0 < full) (hab : a ≤ b) (hcd : c ≤ d)
    (hlo : -full ≤ a - d) (hhi : b - c ≤ full) :
    Orderly (.circle (.ofPeriod (num full))) ⟨num a, num b⟩ ⟨num c, num d⟩

/-- Intervals in order have ends that are numbers. -/
theorem Axis.Orderly.isNum (h : A.Orderly I J) : I.IsNum ∧ J.IsNum := by
  cases h with
  | line hab hcd => exact ⟨⟨_, _, rfl⟩, _, _, rfl⟩
  | circle hfull hab hcd hlo hhi => exact ⟨⟨_, _, rfl⟩, _, _, rfl⟩

variable [IsStrictOrderedRing K]

/-! ## Sizes of differences -/

omit [FloorRing K] [Powers K] in
theorem abs_image_Icc (lo hi : K) :
    (fun δ => |δ|) '' Set.Icc lo hi = Set.Icc (max 0 (max lo (-hi))) (max hi (-lo)) := by
  ext r
  constructor
  · rintro ⟨δ, ⟨hlo, hhi⟩, rfl⟩
    refine ⟨max_le (abs_nonneg δ) (max_le ?_ ?_), abs_le'.mpr ⟨?_, ?_⟩⟩
    · exact hlo.trans (le_abs_self δ)
    · exact (neg_le_neg hhi).trans (neg_le_abs δ)
    · exact hhi.trans (le_max_left hi _)
    · exact (neg_le_neg hlo).trans (le_max_right _ _)
  · rintro ⟨hgap, hreach⟩
    obtain ⟨h0, hlo, hhi⟩ : 0 ≤ r ∧ lo ≤ r ∧ -hi ≤ r := by simpa using hgap
    rcases le_max_iff.mp hreach with hr | hr
    · exact ⟨r, ⟨hlo, hr⟩, abs_of_nonneg h0⟩
    · refine ⟨-r, ⟨by linarith, by linarith⟩, ?_⟩
      show |-r| = r
      rw [abs_neg, abs_of_nonneg h0]

/-- The differences of the points of two intervals fill an interval. -/
theorem Axis.distances_num (hab : a ≤ b) (hcd : c ≤ d) :
    A.distances ⟨num a, num b⟩ ⟨num c, num d⟩
      = (fun δ => Scalar.abs (A.wrap (num δ))) '' Set.Icc (a - d) (b - c) := by
  ext r
  constructor
  · rintro ⟨x, y, hx, hy, rfl⟩
    obtain ⟨u, rfl, hau, hub⟩ := exists_num_of_mem hx.1 hx.2
    obtain ⟨v, rfl, hcv, hvd⟩ := exists_num_of_mem hy.1 hy.2
    refine ⟨u - v, ⟨by linarith, by linarith⟩, ?_⟩
    rw [distance, num_sub]
  · rintro ⟨δ, ⟨hlo, hhi⟩, rfl⟩
    -- the least point of the first interval that has a point of the second at this difference
    obtain ⟨u, hu⟩ : ∃ u, u = max a (c + δ) := ⟨_, rfl⟩
    have hau : a ≤ u := hu ▸ le_max_left a _
    have hcu : c + δ ≤ u := hu ▸ le_max_right a _
    have hub : u ≤ b := hu ▸ max_le hab (by linarith)
    have hud : u ≤ d + δ := hu ▸ max_le (by linarith) (by linarith)
    refine ⟨num u, num (u - δ), ⟨num_le_num.mpr hau, num_le_num.mpr hub⟩,
      ⟨num_le_num.mpr (by linarith), num_le_num.mpr (by linarith)⟩, ?_⟩
    rw [distance, num_sub, sub_sub_cancel]

/-- Bounds are exact where they are those of a function of how far points are apart on the line. -/
theorem Axis.extremes_of_image {f : K → K} {l g : K} (hab : a ≤ b) (hcd : c ≤ d)
    (hf : ∀ δ ∈ Set.Icc (a - d) (b - c), Scalar.abs (A.wrap (num δ)) = num (f |δ|))
    (hs : A.separation ⟨num a, num b⟩ ⟨num c, num d⟩ = ⟨num l, num g⟩)
    (hl : IsLeast (f '' Set.Icc (max 0 (max (a - d) (c - b))) (max (b - c) (d - a))) l)
    (hg : IsGreatest (f '' Set.Icc (max 0 (max (a - d) (c - b))) (max (b - c) (d - a))) g) :
    A.Extremes ⟨num a, num b⟩ ⟨num c, num d⟩ (l, g) := by
  have hset : A.distances ⟨num a, num b⟩ ⟨num c, num d⟩
      = num '' (f '' Set.Icc (max 0 (max (a - d) (c - b))) (max (b - c) (d - a))) := by
    rw [distances_num hab hcd, ← neg_sub b c, ← neg_sub a d, ← abs_image_Icc, Set.image_image,
      Set.image_image]
    exact Set.image_congr hf
  refine ⟨hs, hset ▸ ⟨⟨l, hl.1, rfl⟩, ?_⟩, hset ▸ ⟨⟨g, hg.1, rfl⟩, ?_⟩⟩
  · rintro _ ⟨r, hr, rfl⟩
    exact num_le_num.mpr (hl.2 hr)
  · rintro _ ⟨r, hr, rfl⟩
    exact num_le_num.mpr (hg.2 hr)

/-! ## Lines -/

omit [FloorRing K] [Powers K] in
theorem Interval.gap_le_reach (hab : a ≤ b) (hcd : c ≤ d) :
    max 0 (max (a - d) (c - b)) ≤ max (b - c) (d - a) := by
  have hsizes := abs_image_Icc (a - d) (b - c)
  rw [neg_sub, neg_sub] at hsizes
  exact Set.nonempty_Icc.mp (hsizes ▸ (Set.nonempty_Icc.mpr (by linarith)).image _)

theorem Axis.extremes_line (hab : a ≤ b) (hcd : c ≤ d) :
    ∃ s, Axis.Extremes .line ⟨num a, num b⟩ ⟨num c, num d⟩ s := by
  have hle := Interval.gap_le_reach hab hcd
  refine ⟨_, extremes_of_image (f := id) hab hcd ?_ (Interval.separation_num a b c d) ?_ ?_⟩
  · intro δ _
    exact abs_num δ
  · rw [Set.image_id]
    exact isLeast_Icc hle
  · rw [Set.image_id]
    exact isGreatest_Icc hle

/-! ## Circles -/

namespace Circle

/-- Bounds on a line fold to the least and the greatest height of the ridge between them. -/
theorem exists_foldApart_eq (full : K) (hab : a ≤ b) : ∃ l g,
    (ofPeriod (num full)).foldApart ⟨num a, num b⟩ = ⟨num l, num g⟩ ∧
      IsLeast (ridge full '' Set.Icc a b) l ∧ IsGreatest (ridge full '' Set.Icc a b) g := by
  rw [ofPeriod_num, foldApart]
  simp only [num_lt_num, num_sub, min_num]
  split
  · next hbelow =>
    refine ⟨a, b, rfl, ⟨⟨a, ⟨le_rfl, hab⟩, ridge_of_le_half (by linarith)⟩, ?_⟩,
      ⟨⟨b, ⟨hab, le_rfl⟩, ridge_of_le_half (by linarith)⟩, ?_⟩⟩
    · rintro _ ⟨r, ⟨har, hrb⟩, rfl⟩
      rwa [ridge_of_le_half (by linarith)]
    · rintro _ ⟨r, ⟨har, hrb⟩, rfl⟩
      rwa [ridge_of_le_half (by linarith)]
  · next hreach =>
    split
    · next habove =>
      refine ⟨full - b, full - a, rfl, ⟨⟨b, ⟨hab, le_rfl⟩, ridge_of_half_le (by linarith)⟩, ?_⟩,
        ⟨⟨a, ⟨le_rfl, hab⟩, ridge_of_half_le (by linarith)⟩, ?_⟩⟩
      · rintro _ ⟨r, ⟨har, hrb⟩, rfl⟩
        rw [ridge_of_half_le (by linarith)]
        linarith
      · rintro _ ⟨r, ⟨har, hrb⟩, rfl⟩
        rw [ridge_of_half_le (by linarith)]
        linarith
    · next hgap =>
      -- the top of the ridge is above the stretch, and its ends are lowest
      obtain ⟨hah, hhb⟩ : a ≤ full / 2 ∧ full / 2 ≤ b := ⟨not_lt.mp hgap, not_lt.mp hreach⟩
      refine ⟨min a (full - b), full / 2, rfl, ⟨?_, ?_⟩,
        ⟨⟨full / 2, ⟨hah, hhb⟩, ridge_of_le_half le_rfl⟩, ?_⟩⟩
      · rcases le_total a (full - b) with h | h
        · exact ⟨a, ⟨le_rfl, hab⟩, by rw [ridge_of_le_half hah, min_eq_left h]⟩
        · exact ⟨b, ⟨hab, le_rfl⟩, by rw [ridge_of_half_le hhb, min_eq_right h]⟩
      · rintro _ ⟨r, ⟨har, hrb⟩, rfl⟩
        exact min_le_min har (by linarith)
      · rintro _ ⟨r, -, rfl⟩
        exact ridge_le_half full r

omit [Powers K] [IsStrictOrderedRing K] in
/-- The size of the farther of two ends on both sides of zero. -/
theorem farther_num [Powers K] (lo hi : K) :
    (if num hi < num (-lo) then num (-lo) else num hi : Extended K) = num (max hi (-lo)) := by
  rcases lt_or_ge hi (-lo) with h | h
  · rw [if_pos (num_lt_num.mpr h), max_eq_right h.le]
  · rw [if_neg (by rw [num_lt_num]; exact not_lt.mpr h), max_eq_left h]

omit [IsStrictOrderedRing K] in
/-- Across zero the greatest bound is the size of the farther end, at most half a period. -/
theorem foldAcross_num [NeZero (2 : K)] (full lo hi : K) :
    (ofPeriod (num full)).foldAcross (num lo) (num hi)
      = num (min (full / 2) (max hi (-lo))) := by
  rw [ofPeriod_num, foldAcross, neg_num, farther_num]
  rcases lt_or_ge (full / 2) (max hi (-lo)) with h | h
  · rw [if_pos (num_lt_num.mpr h), min_eq_left h.le]
  · rw [if_neg (by rw [num_lt_num]; exact not_lt.mpr h), min_eq_right h]

/-- Sizes of raw separations on one side of zero are, in order, the gap and the reach. -/
theorem sorted_abs_num {lo hi : K} (hle : lo ≤ hi) (h : hi ≤ 0 ∨ 0 ≤ lo) :
    Bounds.sorted (num |lo|) (num |hi|)
      = (⟨num (max 0 (max lo (-hi))), num (max hi (-lo))⟩ : Bounds (Extended K)) := by
  rw [Bounds.sorted_num]
  rcases h with hneg | hpos
  · rw [abs_of_nonpos hneg, abs_of_nonpos (hle.trans hneg),
      min_eq_right (by linarith), max_eq_left (show -hi ≤ -lo by linarith),
      max_eq_right (show lo ≤ -hi by linarith), max_eq_right (by linarith),
      max_eq_right (show hi ≤ -lo by linarith)]
  · rw [abs_of_nonneg hpos, abs_of_nonneg (hpos.trans hle),
      min_eq_left hle, max_eq_right hle, max_eq_left (show -hi ≤ lo by linarith),
      max_eq_right hpos, max_eq_left (show -lo ≤ hi by linarith)]

/-- Folding looks at the sizes of the raw separations only, on whichever side of zero they are. -/
theorem fold_num {lo hi : K} (hfull : 0 < full) (hle : lo ≤ hi) (hlo : -full ≤ lo)
    (hhi : hi ≤ full) :
    (ofPeriod (num full)).fold (num lo) (num hi) = (ofPeriod (num full)).foldApart
      ⟨num (max 0 (max lo (-hi))), num (max hi (-lo))⟩ := by
  rw [fold, abs_num, abs_num, ← num_zero]
  by_cases hside : hi ≤ 0 ∨ 0 ≤ lo
  · rw [if_pos (hside.imp num_le_num.mpr num_le_num.mpr), sorted_abs_num hle hside]
  · -- across zero the gap is zero, and what the fold cuts off is above half a period
    obtain ⟨hpos, hneg⟩ : 0 < hi ∧ lo < 0 := by simpa using hside
    have hreach : max hi (-lo) ≤ full := max_le hhi (by linarith)
    rw [if_neg (by rw [num_le_num, num_le_num]; exact hside),
      max_eq_left (max_le hneg.le (show -hi ≤ 0 by linarith)), foldAcross_num, ofPeriod_num,
      foldApart]
    simp only [num_lt_num, num_sub, min_num]
    rcases lt_or_ge (max hi (-lo)) (full / 2) with h | h
    · rw [if_pos h, min_eq_right h.le]
    · rw [if_neg h.not_gt, if_neg (show ¬ full / 2 < 0 by linarith), min_eq_left h,
        min_eq_left (show 0 ≤ full - max hi (-lo) by linarith)]

/-- **Within one period the bounds on a circle are those on a line, folded.** -/
theorem separation_eq_foldApart (hfull : 0 < full) (hab : a ≤ b) (hcd : c ≤ d)
    (hlo : -full ≤ a - d) (hhi : b - c ≤ full) :
    (ofPeriod (num full)).separation ⟨num a, num b⟩ ⟨num c, num d⟩
      = (ofPeriod (num full)).foldApart (Interval.separation ⟨num a, num b⟩ ⟨num c, num d⟩) := by
  rw [Interval.separation_num, separation, num_sub, num_sub,
    fold_num hfull (by linarith) hlo hhi, neg_sub, neg_sub]

end Circle

theorem Axis.extremes_circle (hfull : 0 < full) (hab : a ≤ b) (hcd : c ≤ d)
    (hlo : -full ≤ a - d) (hhi : b - c ≤ full) :
    ∃ s, Axis.Extremes (.circle (.ofPeriod (num full))) ⟨num a, num b⟩ ⟨num c, num d⟩ s := by
  obtain ⟨l, g, hs, hl, hg⟩ := Circle.exists_foldApart_eq full (Interval.gap_le_reach hab hcd)
  refine ⟨_, extremes_of_image hab hcd ?_ ?_ hl hg⟩
  · rintro δ ⟨h1, h2⟩
    exact Circle.abs_wrap_of_abs_le hfull (abs_le.mpr ⟨hlo.trans h1, h2.trans hhi⟩)
  · rw [← hs, ← Interval.separation_num]
    exact Circle.separation_eq_foldApart hfull hab hcd hlo hhi

/-- Neither bound is negative. -/
theorem Axis.Extremes.nonneg {s : K × K} (h : A.Extremes I J s) : 0 ≤ s.1 ∧ 0 ≤ s.2 := by
  obtain ⟨_, _, _, _, hl⟩ := h.least.1
  obtain ⟨_, _, _, _, hg⟩ := h.greatest.1
  obtain ⟨w, -, hw⟩ := abs_eq_num.mp hl
  obtain ⟨v, -, hv⟩ := abs_eq_num.mp hg
  exact ⟨hw ▸ abs_nonneg w, hv ▸ abs_nonneg v⟩

/-- **Along an axis the separation is exact** where the intervals are in order. -/
theorem Axis.Orderly.exists_extremes (h : A.Orderly I J) : ∃ s, A.Extremes I J s := by
  cases h with
  | line hab hcd => exact extremes_line hab hcd
  | circle hfull hab hcd hlo hhi => exact extremes_circle hfull hab hcd hlo hhi

/-! ## Parts of intervals -/

theorem Axis.Orderly.symm (h : A.Orderly I J) : A.Orderly J I := by
  cases h with
  | line hab hcd => exact .line hcd hab
  | circle hfull hab hcd hlo hhi => exact .circle hfull hcd hab (by linarith) (by linarith)

theorem Axis.Orderly.part_first (h : A.Orderly I J) {v : Extended K} (hlo : I.lo ≤ v)
    (hhi : v ≤ I.hi) (half : Half) : A.Orderly (I.part v half) J := by
  cases h with
  | line hab hcd =>
    obtain ⟨u, rfl, hau, hub⟩ := exists_num_of_mem hlo hhi
    cases half with
    | lower => exact .line hau hcd
    | upper => exact .line hub hcd
  | circle hfull hab hcd hfar hnear =>
    obtain ⟨u, rfl, hau, hub⟩ := exists_num_of_mem hlo hhi
    cases half with
    | lower => exact .circle hfull hau hcd hfar (by linarith)
    | upper => exact .circle hfull hub hcd (by linarith) hnear

theorem Axis.Orderly.part_second (h : A.Orderly I J) {v : Extended K} (hlo : J.lo ≤ v)
    (hhi : v ≤ J.hi) (half : Half) : A.Orderly I (J.part v half) :=
  (h.symm.part_first hlo hhi half).symm

end MinkowskiBounds
