import MinkowskiBounds.Proofs.Norm.Monotone
import MinkowskiBounds.Proofs.Scalar.Real

/-!
# Raised distances

Raising a distance and taking the root of what is raised are two functions, written apart and with
different cases. Over the real numbers they belong together: for every exponent above zero, infinity
included, raising maps the values from zero to infinity onto themselves in their order, and `root`
takes it back (`Norm.raisesFaithfully_ofExponent`).

So raised distances can be compared in place of distances (`Norm.RaisesFaithfully.root_le_iff`).
-/

namespace MinkowskiBounds

open Extended Scalar

namespace Norm

/-! ## Raising as an isomorphism -/

/-- Raising maps the values from zero to infinity onto themselves, in their order, and `root` is the
inverse. -/
structure RaisesFaithfully (n : Norm (Extended ℝ)) : Prop where
  raise_nonneg : ∀ {d : Extended ℝ}, 0 ≤ d → 0 ≤ n.raise d
  root_nonneg : ∀ {q : Extended ℝ}, 0 ≤ q → 0 ≤ n.root q
  raise_lt_raise : ∀ {d e : Extended ℝ}, 0 ≤ d → d < e → n.raise d < n.raise e
  root_raise : ∀ {d : Extended ℝ}, 0 ≤ d → n.root (n.raise d) = d
  raise_root : ∀ {q : Extended ℝ}, 0 ≤ q → n.raise (n.root q) = q

/-- **Comparing raised distances is comparing distances.** -/
theorem RaisesFaithfully.root_le_iff {n : Norm (Extended ℝ)} (h : n.RaisesFaithfully)
    {q u : Extended ℝ} (hq : 0 ≤ q) (hu : 0 ≤ u) : n.root q ≤ u ↔ q ≤ n.raise u := by
  have hdefined : ∀ {x : Extended ℝ}, 0 ≤ x → IsDefined x := fun hx => (ordered.defined_of_le hx).2
  constructor
  · intro hle
    rcases lt_or_eq_of_le hle with hlt | heq
    · have hraised := h.raise_lt_raise (h.root_nonneg hq) hlt
      rw [h.raise_root hq] at hraised
      exact ordered.le_of_lt hraised
    · rw [← heq, h.raise_root hq]
      exact ordered.le_refl (hdefined hq)
  · intro hle
    by_contra hnot
    have hlt := (ordered.not_le (hdefined (h.root_nonneg hq)) (hdefined hu)).mp hnot
    have hraised := h.raise_lt_raise hu hlt
    rw [h.raise_root hq] at hraised
    exact ordered.not_lt_of_le hle hraised

theorem RaisesFaithfully.root_le_root {n : Norm (Extended ℝ)} (h : n.RaisesFaithfully)
    {q r : Extended ℝ} (hq : 0 ≤ q) (hle : q ≤ r) : n.root q ≤ n.root r := by
  have hr : 0 ≤ r := ordered.le_trans hq hle
  rwa [h.root_le_iff hq (h.root_nonneg hr), h.raise_root hr]

theorem RaisesFaithfully.raise_le_raise_iff {n : Norm (Extended ℝ)} (h : n.RaisesFaithfully)
    {d e : Extended ℝ} (hd : 0 ≤ d) (he : 0 ≤ e) : n.raise d ≤ n.raise e ↔ d ≤ e := by
  rw [← h.root_le_iff (h.raise_nonneg hd) he, h.root_raise hd]

theorem RaisesFaithfully.raise_lt_raise_iff {n : Norm (Extended ℝ)} (h : n.RaisesFaithfully)
    {d e : Extended ℝ} (hd : 0 ≤ d) (he : 0 ≤ e) : n.raise d < n.raise e ↔ d < e := by
  have hdefined : ∀ {x : Extended ℝ}, 0 ≤ x → IsDefined x := fun hx => (ordered.defined_of_le hx).2
  rw [← ordered.not_le (hdefined (h.raise_nonneg he)) (hdefined (h.raise_nonneg hd)),
    ← ordered.not_le (hdefined he) (hdefined hd), h.raise_le_raise_iff he hd]

/-! ## Powers -/

variable {a b q : ℝ}

theorem isInfinite_num (a : ℝ) : Scalar.isInfinite (num a) = false := num_beq_infinity |a|

/-- With a finite exponent, the raised form of a number is its power. -/
theorem raise_num (hq : 0 < q) (ha : 0 ≤ a) : (ofExponent (num q)).raise (num a) = num (a ^ q) := by
  by_cases h2 : q = 2
  · rw [h2, ← num_two, ofExponent_two, raise, num_mul, Real.rpow_two, sq]
  · have hpow : (if Scalar.isInfinite (num a) then num a else Scalar.pow (num a) (num q))
        = num (a ^ q) := by
      rw [isInfinite_num, ← pow_num ha hq]
      rfl
    by_cases h1 : q = 1
    · subst h1
      rw [num_one, ofExponent_one]
      exact hpow
    · rw [ofExponent_num h1 h2]
      exact hpow

/-- With a finite exponent, the root of a number is its power with the inverse exponent. -/
theorem root_num (hq : 0 < q) (ha : 0 ≤ a) : (ofExponent (num q)).root (num a) = num (a ^ q⁻¹) := by
  by_cases h2 : q = 2
  · rw [h2, ← num_two, ofExponent_two, root, sqrt_num ha, Real.sqrt_eq_rpow, one_div]
  · by_cases h1 : q = 1
    · rw [h1, num_one, ofExponent_one, root, inv_one, Real.rpow_one]
    · rw [ofExponent_num h1 h2, root, isInfinite_num, ← num_one, num_div 1 hq.ne', one_div,
        ← pow_num ha (inv_pos.mpr hq)]
      rfl

theorem raise_inf (q : ℝ) : (ofExponent (num q)).raise (inf false) = inf false := by
  rcases ofExponent_num_eq q with h | h | h <;>
  · rw [h]
    rfl

theorem root_inf (q : ℝ) : (ofExponent (num q)).root (inf false) = inf false := by
  rcases ofExponent_num_eq q with h | h | h <;>
  · rw [h]
    rfl

/-- No root of what is not a number is one. -/
theorem root_nan {p : Extended ℝ} (hp : 0 < p) : (ofExponent p).root nan = nan := by
  rcases zero_lt_iff.mp hp with ⟨q, -, rfl⟩ | rfl
  · rcases ofExponent_num_eq q with h | h | h <;>
    · rw [h]
      rfl
  · rfl

/-! ## All exponents -/

theorem raisesFaithfully_num (hq : 0 < q) : (ofExponent (num q)).RaisesFaithfully where
  raise_nonneg {d} hd := by
    rcases zero_le_iff.mp hd with ⟨a, ha, rfl⟩ | rfl
    · rw [raise_num hq ha]
      exact num_le_num.mpr (Real.rpow_nonneg ha q)
    · rwa [raise_inf]
  root_nonneg {r} hr := by
    rcases zero_le_iff.mp hr with ⟨a, ha, rfl⟩ | rfl
    · rw [root_num hq ha]
      exact num_le_num.mpr (Real.rpow_nonneg ha q⁻¹)
    · rwa [root_inf]
  raise_lt_raise {d e} hd hlt := by
    rcases zero_le_iff.mp hd with ⟨a, ha, rfl⟩ | rfl
    · rcases zero_le_iff.mp (ordered.le_trans hd (ordered.le_of_lt hlt)) with ⟨b, hb, rfl⟩ | rfl
      · rw [raise_num hq ha, raise_num hq hb]
        exact num_lt_num.mpr (Real.rpow_lt_rpow ha (num_lt_num.mp hlt) hq)
      · rw [raise_num hq ha, raise_inf]
        exact num_lt_inf _
    · exact absurd hlt (not_inf_lt e)
  root_raise {d} hd := by
    rcases zero_le_iff.mp hd with ⟨a, ha, rfl⟩ | rfl
    · rw [raise_num hq ha, root_num hq (Real.rpow_nonneg ha q), Real.rpow_rpow_inv ha hq.ne']
    · rw [raise_inf, root_inf]
  raise_root {r} hr := by
    rcases zero_le_iff.mp hr with ⟨a, ha, rfl⟩ | rfl
    · rw [root_num hq ha, raise_num hq (Real.rpow_nonneg ha q⁻¹), Real.rpow_inv_rpow ha hq.ne']
    · rw [root_inf, raise_inf]

/-- **Raising is an isomorphism for every exponent above zero**, infinity included. -/
theorem raisesFaithfully_ofExponent {p : Extended ℝ} (hp : 0 < p) :
    (ofExponent p).RaisesFaithfully := by
  rcases zero_lt_iff.mp hp with ⟨q, hq, rfl⟩ | rfl
  · exact raisesFaithfully_num hq
  · -- in the Chebyshev norm nothing is raised
    exact ⟨id, id, fun _ => id, fun _ => rfl, fun _ => rfl⟩

/-- All exponents above zero measure monotonically. -/
theorem isMonotone_ofExponent_real {p : Extended ℝ} (hp : 0 < p) : (ofExponent p).IsMonotone := by
  rcases zero_lt_iff.mp hp with ⟨q, hq, rfl⟩ | rfl
  · refine isMonotone_ofExponent (.inr ⟨q, rfl, fun s => s ^ q, ?_, fun s hs => pow_num hs hq⟩)
    exact fun s hs s' _ hle => Real.rpow_le_rpow hs hle hq.le
  · exact isMonotone_ofExponent (.inl rfl)

/-- Raising takes products to products. -/
theorem raise_mul_raise {p : Extended ℝ} (hp : 0 < p) (ha : 0 ≤ a) (hb : 0 ≤ b) :
    (ofExponent p).raise (num a) * (ofExponent p).raise (num b)
      = (ofExponent p).raise (num (a * b)) := by
  rcases zero_lt_iff.mp hp with ⟨q, hq, rfl⟩ | rfl
  · rw [raise_num hq ha, raise_num hq hb, raise_num hq (mul_nonneg ha hb), num_mul,
      Real.mul_rpow ha hb]
  · exact num_mul a b

theorem raise_zero {p : Extended ℝ} (hp : 0 < p) : (ofExponent p).raise 0 = 0 := by
  rcases zero_lt_iff.mp hp with ⟨q, hq, rfl⟩ | rfl
  · rw [← num_zero, raise_num hq le_rfl, Real.zero_rpow hq.ne']
  · rfl

theorem raise_one {p : Extended ℝ} (hp : 0 < p) : (ofExponent p).raise 1 = 1 := by
  rcases zero_lt_iff.mp hp with ⟨q, hq, rfl⟩ | rfl
  · rw [← num_one, raise_num hq zero_le_one, Real.one_rpow]
  · rfl

end Norm

end MinkowskiBounds
