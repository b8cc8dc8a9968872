import Mathlib.Tactic.Linarith
import Mathlib.Tactic.Ring
import MinkowskiBounds.Circle
import MinkowskiBounds.Proofs.Scalar.Extended

/-!
# Differences on a circle

Over exact numbers `Circle.wrap` finds the one value in `(-half, half]` that differs from the given
one by a multiple of the period (`Circle.wrap_eq_num_iff`), the representative of all differences that
multiples of the period lead to (`Circle.wrap_representative`). Rounding to the nearest multiple leaves
at most half a period, so that of the two corrections only the one at the lower end ever acts.

Within one period, how far a difference is from zero on the circle depends on how far it is on the
line alone, and is what `ridge` says: it rises up to half a period and falls from there on.
-/

namespace MinkowskiBounds

open Extended

variable {K : Type} [Field K] [LinearOrder K] [FloorRing K]

theorem Circle.ofPeriod_num [Powers K] [NeZero (2 : K)] (full : K) :
    ofPeriod (num full) = ⟨num full, num (full / 2)⟩ := by
  rw [ofPeriod, num_two, num_div full two_ne_zero]

/-! ## Rounding -/

theorem abs_sub_roundAway_le [IsStrictOrderedRing K] (a : K) : |a - roundAway a| ≤ 1 / 2 := by
  rw [abs_le]
  unfold roundAway
  split
  · have h1 := Int.floor_le (a + 1 / 2)
    have h2 := Int.lt_floor_add_one (a + 1 / 2)
    constructor <;> linarith
  · have h1 := Int.le_ceil (a - 1 / 2)
    have h2 := Int.ceil_lt_add_one (a - 1 / 2)
    constructor <;> linarith

/-- Without the nearest multiple of the period at most half a period is left. -/
theorem abs_sub_mul_roundAway_le [IsStrictOrderedRing K] {full : K} (hfull : 0 < full) (δ : K) :
    |δ - full * (roundAway (δ / full) : K)| ≤ full / 2 := by
  have hscale : δ - full * (roundAway (δ / full) : K)
      = full * (δ / full - roundAway (δ / full)) := by
    rw [mul_sub, mul_div_cancel₀ δ hfull.ne']
  rw [hscale, abs_mul, abs_of_pos hfull]
  have := mul_le_mul_of_nonneg_left (abs_sub_roundAway_le (δ / full)) hfull.le
  linarith

/-! ## Distances within one period -/

/-- How far two points at distance `d` on the line are apart when it closes up after `full ≥ d`. -/
def ridge (full d : K) : K := min d (full - d)

variable [IsStrictOrderedRing K] {full : K}

omit [FloorRing K] in
theorem ridge_of_le_half {d : K} (h : d ≤ full / 2) : ridge full d = d :=
  min_eq_left (by linarith)

omit [FloorRing K] in
theorem ridge_of_half_le {d : K} (h : full / 2 ≤ d) : ridge full d = full - d :=
  min_eq_right (by linarith)

omit [FloorRing K] in
theorem ridge_le_half (full d : K) : ridge full d ≤ full / 2 := by
  rcases le_total d (full / 2) with h | h
  · exact (min_le_left d _).trans h
  · exact (min_le_right d _).trans (by linarith)

/-! ## Representatives -/

/-- Two values in `(-full / 2, full / 2]` that differ by a multiple of `full` are equal. -/
theorem eq_of_sub_eq_mul {w w' : K} {j : ℤ} (hw : -(full / 2) < w ∧ w ≤ full / 2)
    (hw' : -(full / 2) < w' ∧ w' ≤ full / 2) (h : w - w' = j * full) : w = w' := by
  have hfull : 0 < full := by linarith
  have hlt : (j : K) < 1 := by
    by_contra hge
    have := mul_le_mul_of_nonneg_right (not_lt.mp hge) hfull.le
    linarith
  have hgt : (-1 : K) < j := by
    by_contra hle
    have := mul_le_mul_of_nonneg_right (not_lt.mp hle) hfull.le
    linarith
  have hj : j = 0 := by
    have h1 : j < 1 := by exact_mod_cast hlt
    have h2 : -1 < j := by exact_mod_cast hgt
    omega
  rw [hj, Int.cast_zero, zero_mul] at h
  linarith

namespace Circle

variable [Powers K]

theorem exists_wrap_eq (hfull : 0 < full) (δ : K) : ∃ (w : K) (k : ℤ),
    (ofPeriod (num full)).wrap (num δ) = num w ∧ (-(full / 2) < w ∧ w ≤ full / 2) ∧
      δ - w = k * full := by
  rw [ofPeriod_num, wrap, correct]
  simp only [neg_num, num_lt_num, num_le_num, num_div δ hfull.ne', round_num, num_mul, num_sub,
    num_add]
  split
  · next hin => exact ⟨δ, 0, rfl, hin, by simp⟩
  · -- the nearest multiple leaves at most half a period, so the upper correction never acts
    have hnear := abs_sub_mul_roundAway_le hfull δ
    generalize hw : δ - full * (roundAway (δ / full) : K) = w at hnear ⊢
    obtain ⟨hlo, hhi⟩ := abs_le.mp hnear
    split
    · refine ⟨w + full, roundAway (δ / full) - 1, rfl, ⟨by linarith, by linarith⟩, ?_⟩
      rw [Int.cast_sub, Int.cast_one, ← hw]
      ring
    · next hgt =>
      rw [if_neg (not_lt.mpr hhi)]
      refine ⟨w, roundAway (δ / full), rfl, ⟨not_le.mp hgt, hhi⟩, ?_⟩
      rw [← hw]
      ring

/-- **A difference wraps to the one value in `(-full / 2, full / 2]`** that differs from it by a
multiple of the period. -/
theorem wrap_eq_num_iff (hfull : 0 < full) {δ w : K} :
    (ofPeriod (num full)).wrap (num δ) = num w ↔
      (-(full / 2) < w ∧ w ≤ full / 2) ∧ ∃ k : ℤ, δ - w = k * full := by
  obtain ⟨v, j, hv, hmem, hj⟩ := exists_wrap_eq hfull δ
  rw [hv, num.injEq]
  constructor
  · rintro rfl
    exact ⟨hmem, j, hj⟩
  · rintro ⟨hw, k, hk⟩
    refine eq_of_sub_eq_mul (j := k - j) hmem hw ?_
    rw [Int.cast_sub, sub_mul, ← hk, ← hj]
    ring

/-- Differences have the same representative exactly if a multiple of the period is between them. -/
theorem wrap_eq_wrap_iff (hfull : 0 < full) {δ ε : K} :
    (ofPeriod (num full)).wrap (num ε) = (ofPeriod (num full)).wrap (num δ) ↔
      ∃ k : ℤ, ε = δ + k * full := by
  obtain ⟨w, j, hw, hmem, hj⟩ := exists_wrap_eq hfull δ
  rw [hw, wrap_eq_num_iff hfull]
  constructor
  · rintro ⟨-, k, hk⟩
    refine ⟨k - j, ?_⟩
    rw [Int.cast_sub, sub_mul, ← hk, ← hj]
    ring
  · rintro ⟨k, rfl⟩
    refine ⟨hmem, j + k, ?_⟩
    rw [Int.cast_add, add_mul, ← hj]
    ring

/--
**Wrapping finds a representative of its own for each class of differences.**

On a circle with a period above zero, halved exactly, a difference of any size and sign wraps to a
value in `(-half, half]` from which it differs by a multiple of the period, and to the only such value.
Two differences wrap to the same value exactly if a multiple of the period is between them, so that
turning full circle changes nothing; and what was wrapped stays as it is when it is wrapped again.
-/
theorem wrap_representative {half : K} (hfull : 0 < full) (hhalf : half = full / 2) (δ : K) :
    let c : Circle (Extended K) := ⟨num full, num half⟩
    ∃ w : K, c.wrap (num δ) = num w ∧
      (-half < w ∧ w ≤ half) ∧ (∃ k : ℤ, δ - w = k * full) ∧
      (∀ v : K, -half < v ∧ v ≤ half → (∃ k : ℤ, δ - v = k * full) → v = w) ∧
      (∀ ε : K, c.wrap (num ε) = c.wrap (num δ) ↔ ∃ k : ℤ, ε = δ + k * full) ∧
      c.wrap (c.wrap (num δ)) = c.wrap (num δ) := by
  intro c
  have hc : c = ofPeriod (num full) := by rw [ofPeriod_num, ← hhalf]
  rw [hc, hhalf]
  obtain ⟨w, k, hw, hmem, hk⟩ := exists_wrap_eq hfull δ
  refine ⟨w, hw, hmem, ⟨k, hk⟩, ?_, fun ε => wrap_eq_wrap_iff hfull, ?_⟩
  · intro v hv hj
    have hwrap := (wrap_eq_num_iff hfull).mpr ⟨hv, hj⟩
    rw [hw, num.injEq] at hwrap
    exact hwrap.symm
  · rw [hw, wrap_eq_num_iff hfull]
    exact ⟨hmem, 0, by simp⟩

/-- Two and a half periods to either side are the same difference, half a period, and nothing else. -/
theorem wrap_representative_ties :
    let c : Circle (Extended ℚ) := ⟨num 10, num 5⟩
    (0 : ℚ) < 10 ∧ (5 : ℚ) = 10 / 2 ∧ c.wrap (num 25) = num 5 ∧
    c.wrap (num (-25)) = c.wrap (num 25) ∧ c.wrap (c.wrap (num 25)) = c.wrap (num 25) ∧
    ∀ v : ℚ, -5 < v ∧ v ≤ 5 → (∃ k : ℤ, 25 - v = k * 10) → v = 5 := by
  intro c
  have hfull : (0 : ℚ) < 10 := by decide +kernel
  have hhalf : (5 : ℚ) = 10 / 2 := by decide +kernel
  obtain ⟨w, hw, -, -, honly, hsame, htwice⟩ := wrap_representative hfull hhalf 25
  have hwrap : c.wrap (num 25) = num 5 := by decide +kernel
  obtain rfl : 5 = w := num.inj (hwrap.symm.trans hw)
  exact ⟨hfull, hhalf, hwrap, (hsame (-25)).mpr ⟨-5, by norm_num⟩, htwice, honly⟩

/-- **Differences of at most a period are as far from zero as the ridge is high.** -/
theorem abs_wrap_of_abs_le (hfull : 0 < full) {δ : K} (h : |δ| ≤ full) :
    Scalar.abs ((ofPeriod (num full)).wrap (num δ)) = num (ridge full |δ|) := by
  rw [abs_eq_num]
  obtain ⟨hlo, hhi⟩ := abs_le.mp h
  -- within one period at most one is taken away, and the representative can be named
  rcases le_or_gt δ (-(full / 2)) with hbelow | habove
  · refine ⟨δ + full, (wrap_eq_num_iff hfull).mpr ⟨⟨by linarith, by linarith⟩, -1, ?_⟩, ?_⟩
    · rw [Int.cast_neg, Int.cast_one]
      ring
    · rw [abs_of_nonneg (by linarith), abs_of_nonpos (by linarith),
        ridge_of_half_le (by linarith)]
      ring
  · rcases le_or_gt δ (full / 2) with hin | hout
    · refine ⟨δ, (wrap_eq_num_iff hfull).mpr ⟨⟨habove, hin⟩, 0, by simp⟩, ?_⟩
      exact (ridge_of_le_half (abs_le.mpr ⟨habove.le, hin⟩)).symm
    · refine ⟨δ - full, (wrap_eq_num_iff hfull).mpr ⟨⟨by linarith, by linarith⟩, 1, ?_⟩, ?_⟩
      · rw [Int.cast_one]
        ring
      · rw [abs_of_nonpos (by linarith), abs_of_nonneg (by linarith),
          ridge_of_half_le (by linarith)]
        ring

/-- However large, differences are at least as far from zero as the ridge is high: beyond a period it
is below zero. -/
theorem ridge_le_abs_wrap (hfull : 0 < full) {δ w : K}
    (h : (ofPeriod (num full)).wrap (num δ) = num w) : ridge full |δ| ≤ |w| := by
  rcases le_or_gt |δ| full with hin | hout
  · have habs := abs_wrap_of_abs_le hfull hin
    rw [h, abs_num, num.injEq] at habs
    exact habs.ge
  · calc ridge full |δ| ≤ full - |δ| := min_le_right _ _
      _ ≤ 0 := by linarith
      _ ≤ |w| := abs_nonneg w

end Circle

end MinkowskiBounds
