import Mathlib.Analysis.SpecialFunctions.Pow.Real
import MinkowskiBounds.Proofs.Scalar.Growing

/-!
# Real numbers as scalars

Over the real numbers roots and powers can be exact. Numbers from zero on have roots and powers with
any number as the exponent, and numbers below zero have powers with whole exponents. All others, such
as the power `(-1) ^ (3 / 2)`, are undefined. Powers of what is infinitely far below zero and powers
with infinite exponents are left undefined as well: sizes are not below zero, and an infinite exponent
takes no powers.
-/

namespace MinkowskiBounds

open Extended Scalar

/-- The square root of what is not below zero; powers of the same, and powers with whole exponents. -/
noncomputable instance : Powers ℝ where
  sqrt
    | num a => if 0 ≤ a then num √a else nan
    | inf false => inf false
    | _ => nan
  pow
    | num a, num p =>
      if a = 0 ∧ p < 0 then inf false else if 0 ≤ a ∨ p = ⌊p⌋ then num (a ^ p) else nan
    | inf false, num p => if 0 < p then inf false else num (if p = 0 then 1 else 0)
    | _, _ => nan

namespace Extended

variable {a p : ℝ}

theorem sqrt_num (ha : 0 ≤ a) : Scalar.sqrt (num a) = num √a := if_pos ha

theorem pow_num (ha : 0 ≤ a) (hp : 0 < p) : Scalar.pow (num a) (num p) = num (a ^ p) :=
  (if_neg fun h => h.2.not_gt hp).trans (if_pos (.inl ha))

/-- Natural powers are defined on both sides of zero. -/
theorem pow_num_natCast (a : ℝ) (k : ℕ) : Scalar.pow (num a) (num (k : ℝ)) = num (a ^ k) := by
  have hwhole : (k : ℝ) = ⌊(k : ℝ)⌋ := by
    rw [Int.floor_natCast, Int.cast_natCast]
  rw [← Real.rpow_natCast]
  exact (if_neg fun h => (Nat.cast_nonneg k).not_gt h.2).trans (if_pos (.inr hwhole))

/-- All other powers of what is below zero are undefined. -/
theorem pow_num_of_neg (ha : a < 0) (hp : p ≠ ⌊p⌋) : Scalar.pow (num a) (num p) = nan :=
  (if_neg fun h => ha.ne h.1).trans (if_neg (not_or.mpr ⟨ha.not_ge, hp⟩))

/-- **The exponents with which all powers are numbers are the natural ones.** -/
theorem forall_pow_num_iff :
    (∀ a : ℝ, ∃ r : ℝ, Scalar.pow (num a) (num p) = num r) ↔ ∃ k : ℕ, p = k := by
  constructor
  · intro h
    have hwhole : p = ⌊p⌋ := by
      by_contra hp
      obtain ⟨r, hr⟩ := h (-1)
      rw [pow_num_of_neg neg_one_lt_zero hp] at hr
      cases hr
    have hnonneg : 0 ≤ p := by
      by_contra hp
      obtain ⟨r, hr⟩ := h 0
      have hinf : Scalar.pow (num 0) (num p) = inf false := if_pos ⟨rfl, not_le.mp hp⟩
      rw [hinf] at hr
      cases hr
    obtain ⟨k, hk⟩ := Int.eq_ofNat_of_zero_le (Int.floor_nonneg.mpr hnonneg)
    exact ⟨k, by rw [hwhole, hk, Int.cast_natCast]⟩
  · rintro ⟨k, rfl⟩ a
    exact ⟨a ^ k, pow_num_natCast a k⟩

theorem powersNonneg_real : PowersNonneg ℝ := by
  intro a p h
  have hinf : (0 : Extended ℝ) ≤ inf false := ordered.le_of_lt (num_lt_inf 0)
  cases a with
  | num a => cases p with
    | num p =>
      show 0 ≤ if |a| = 0 ∧ p < 0 then inf false
        else if 0 ≤ |a| ∨ p = ⌊p⌋ then num (|a| ^ p) else nan
      split
      · exact hinf
      · rw [if_pos (.inl (abs_nonneg a))]
        exact num_le_num.mpr (Real.rpow_nonneg (abs_nonneg a) p)
    | inf s => exact absurd rfl (isDefined_iff.mp h)
    | nan => exact absurd rfl (isDefined_iff.mp h)
  | inf s => cases p with
    | num p =>
      show (0 : Extended ℝ) ≤ if 0 < p then inf false else num (if p = 0 then 1 else 0)
      split
      · exact hinf
      · refine num_le_num.mpr ?_
        split
        · exact zero_le_one
        · exact le_rfl
    | inf s' => exact absurd rfl (isDefined_iff.mp h)
    | nan => exact absurd rfl (isDefined_iff.mp h)
  | nan => exact absurd rfl (isDefined_iff.mp h)

end Extended

end MinkowskiBounds
