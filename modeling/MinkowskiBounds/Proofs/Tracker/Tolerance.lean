import MinkowskiBounds.Proofs.Norm.Raise
import MinkowskiBounds.Proofs.Tracker.Fresh

/-!
# The tolerance of a tracker

A search that may be off by a relative tolerance `ε` prunes what is above `r / (1 + ε)` where an exact
one prunes what is above `r`. A tracker holds raised distances, and for the tolerance a factor to scale
them by. The factor is computed by cases of its own, which are not those of raising; but over the real
numbers it is in all of them the raised form of the one distance `1 / (1 + ε)`
(`Norm.tolerance_eq_raise`).

Raising keeps products and order. So scaling by the factor is dividing the distance by `1 + ε`, and the
comparison of scaled raised distances is the comparison that the search means
(`Tracker.factor_tolerates`).
-/

namespace MinkowskiBounds

open Extended

namespace Norm

variable {ε q : ℝ}

/-- Setting a tolerance of zero apart makes no exception where one is divided by one. -/
theorem ite_tolerance_eq {s : ℝ} (hs : ε = 0 → s = 1) :
    (if num ε == 0 then 1 else num (1 / s) : Extended ℝ) = num s⁻¹ := by
  rw [← num_zero, num_beq_num, one_div]
  by_cases hzero : ε = 0
  · simp [hzero, hs hzero, num_one]
  · simp [hzero]

/-- With a finite exponent the factor is a power, also where it is computed without one. -/
theorem tolerance_num (hq : 0 < q) (hε : 0 ≤ ε) :
    (ofExponent (num q)).tolerance (num ε) = num ((1 + ε)⁻¹ ^ q) := by
  have hpos : 0 < 1 + ε := by linarith
  rw [Real.inv_rpow hpos.le]
  by_cases h2 : q = 2
  · rw [h2, ← num_two, ofExponent_two, tolerance, ← num_one, num_add, num_mul,
      num_div 1 (mul_pos hpos hpos).ne', one_div, Real.rpow_two, sq]
  · have hpow : (if num ε == 0 then 1 else 1 / Scalar.pow (1 + num ε) (num q))
        = num ((1 + ε) ^ q)⁻¹ := by
      rw [← num_one, num_add, pow_num hpos.le hq, num_div 1 (Real.rpow_pos_of_pos hpos q).ne']
      exact ite_tolerance_eq fun hzero => by rw [hzero, add_zero, Real.one_rpow]
    by_cases h1 : q = 1
    · subst h1
      rw [num_one, ofExponent_one]
      exact hpow
    · rw [ofExponent_num h1 h2]
      exact hpow

theorem tolerance_infinity (hε : 0 ≤ ε) :
    (ofExponent (inf false)).tolerance (num ε) = num (1 + ε)⁻¹ := by
  have hpos : 0 < 1 + ε := by linarith
  show (if num ε == 0 then 1 else 1 / (1 + num ε)) = num (1 + ε)⁻¹
  rw [← num_one, num_add, num_div 1 hpos.ne']
  exact ite_tolerance_eq fun hzero => by rw [hzero, add_zero]

/-- **The factor is the raised form of what a distance of one shrinks to**, for every exponent. -/
theorem tolerance_eq_raise {p : Extended ℝ} (hp : 0 < p) (hε : 0 ≤ ε) :
    (ofExponent p).tolerance (num ε) = (ofExponent p).raise (num (1 + ε)⁻¹) := by
  rcases zero_lt_iff.mp hp with ⟨q, hq, rfl⟩ | rfl
  · rw [tolerance_num hq hε, raise_num hq (by positivity)]
  · exact tolerance_infinity hε

/-- The factor is above zero and at most one. -/
theorem tolerance_mem {p : Extended ℝ} (hp : 0 < p) (hε : 0 ≤ ε) :
    0 < (ofExponent p).tolerance (num ε) ∧ (ofExponent p).tolerance (num ε) ≤ 1 := by
  have hraise := raisesFaithfully_ofExponent hp
  have hpos : 0 < (1 + ε)⁻¹ := by positivity
  have hone : (1 + ε)⁻¹ ≤ 1 := inv_le_one_of_one_le₀ (by linarith)
  have hlt := hraise.raise_lt_raise (num_le_num.mpr le_rfl) (num_lt_num.mpr hpos)
  have hle := (hraise.raise_le_raise_iff (num_le_num.mpr hpos.le)
    (num_le_num.mpr zero_le_one)).mpr (num_le_num.mpr hone)
  rw [num_zero, raise_zero hp] at hlt
  rw [num_one, raise_one hp] at hle
  rw [tolerance_eq_raise hp hε]
  exact ⟨hlt, hle⟩

/-- **Scaling a raised distance by the factor is dividing the distance by `1 + ε`.** -/
theorem tolerance_mul_raise {p : Extended ℝ} (hp : 0 < p) (hε : 0 ≤ ε) {r : ℝ} (hr : 0 ≤ r) :
    (ofExponent p).tolerance (num ε) * (ofExponent p).raise (num r)
      = (ofExponent p).raise (num (r / (1 + ε))) := by
  rw [tolerance_eq_raise hp hε, raise_mul_raise hp (by positivity) hr, inv_mul_eq_div]

end Norm

/-- What is above a quotient is, multiplied, above the dividend. -/
theorem Extended.div_lt_iff_lt_mul {r s : ℝ} (hs : 0 < s) {d : Extended ℝ} (hd : 0 ≤ d) :
    num (r / s) < d ↔ num r < num s * d := by
  rcases zero_le_iff.mp hd with ⟨a, -, rfl⟩ | rfl
  · rw [num_mul, num_lt_num, num_lt_num, div_lt_iff₀' hs]
  · have hinf : num s * inf false = inf false := by
      show (if s = 0 then nan else inf (false ^^ decide (s < 0))) = inf false
      rw [if_neg hs.ne', decide_eq_false hs.not_gt, Bool.xor_false]
    rw [hinf]
    exact iff_of_true (num_lt_inf _) (num_lt_inf _)

namespace Tracker

/-- Runs leave the factor as it is. -/
theorem factor_run {α : Type} [Scalar α] {t : Tracker α} {dims : Nat} (hs : t.Shaped dims)
    (hf : t.stack.frames = []) (as : List (Action α)) : (t.run as).factor = t.factor := by
  refine run_keeps (·.factor) hs hf (fun _ _ => rfl) ?_ as
  intro s side half cut I bounds
  cases side <;> rfl

/--
**The factor of a tracker realises its tolerance in raised distances.**

A tracker may be built in any space, with any exponent above zero, infinity included, and with any
tolerance `ε` not below zero, and driven in any way. Its factor is above zero and at most one; scaling
the raised form of a distance `r` by it gives the raised form of `r / (1 + ε)`; and a distance raised is
above that exactly if `1 + ε` times the distance, be it a number or infinite, is above `r`.
-/
theorem factor_tolerates {p : Extended ℝ} {ε : ℝ} (hp : 0 < p) (hε : 0 ≤ ε)
    {space : Space (Extended ℝ)} {first second : Box (Extended ℝ)} {limit : Extended ℝ}
    {t : Tracker (Extended ℝ)}
    (h : (build space first second (.ofExponent p) (num ε) limit).result = .ok t)
    (as : List (Action (Extended ℝ))) :
    let n := Norm.ofExponent p
    (0 < (t.run as).factor ∧ (t.run as).factor ≤ 1) ∧
    ∀ r : ℝ, 0 ≤ r →
      (t.run as).factor * n.raise (num r) = n.raise (num r / (1 + num ε)) ∧
      ∀ d : Extended ℝ, 0 ≤ d →
        ((t.run as).factor * n.raise (num r) < n.raise d ↔ num r < (1 + num ε) * d) := by
  intro n
  obtain ⟨hfit, rfl⟩ := result_build_eq_ok_iff.mp h
  rw [factor_run (shaped_start hfit n (num ε) limit) rfl as]
  show (0 < n.tolerance (num ε) ∧ n.tolerance (num ε) ≤ 1) ∧ ∀ r : ℝ, 0 ≤ r →
    n.tolerance (num ε) * n.raise (num r) = n.raise (num r / (1 + num ε)) ∧
    ∀ d : Extended ℝ, 0 ≤ d →
      (n.tolerance (num ε) * n.raise (num r) < n.raise d ↔ num r < (1 + num ε) * d)
  refine ⟨Norm.tolerance_mem hp hε, ?_⟩
  intro r hr
  have hpos : 0 < 1 + ε := by linarith
  rw [Norm.tolerance_mul_raise hp hε hr, ← num_one, num_add, num_div r hpos.ne']
  refine ⟨rfl, ?_⟩
  intro d hd
  rw [(Norm.raisesFaithfully_ofExponent hp).raise_lt_raise_iff
    (num_le_num.mpr (div_nonneg hr hpos.le)) hd]
  exact div_lt_iff_lt_mul hpos hd

/-- Cubes and a tolerance of one, after a push: what is above half of 4, which is 2, is pruned. -/
theorem factor_tolerates_cubes :
    let first : Box (Extended ℝ) := ⟨[⟨num 0, num 1⟩]⟩
    let second : Box (Extended ℝ) := ⟨[⟨num 2, num 4⟩]⟩
    let n : Norm (Extended ℝ) := .ofExponent (num 3)
    let t := start .unbounded first second n (num 1) (inf false)
    let t' := t.run [.push .first .lower ⟨0, num (1 / 2)⟩]
    (0 : Extended ℝ) < num 3 ∧ (0 : ℝ) ≤ 1 ∧
    (build .unbounded first second n (num 1) (inf false)).result = .ok t ∧
    t'.factor * n.raise (num 4) = n.raise (num 2) ∧
    t'.factor * n.raise (num 4) < n.raise (num 3) ∧ ¬ t'.factor * n.raise (num 4) < n.raise (num 2) := by
  intro first second n t t'
  have hp : (0 : Extended ℝ) < num 3 := num_lt_num.mpr three_pos
  have h : (build .unbounded first second n (num 1) (inf false)).result = .ok t :=
    result_build_eq_ok_iff.mpr ⟨⟨rfl, rfl⟩, rfl⟩
  obtain ⟨-, htolerates⟩ :=
    factor_tolerates hp zero_le_one h [.push .first .lower ⟨0, num (1 / 2)⟩]
  obtain ⟨hscaled, hpruned⟩ := htolerates 4 (by norm_num)
  have htwo : num 4 / (1 + num 1) = (num 2 : Extended ℝ) := by
    rw [← num_one, num_add, num_div _ (by norm_num)]
    norm_num
  rw [htwo] at hscaled
  have hsum : (1 : Extended ℝ) + num 1 = num 2 := by
    rw [← num_one, num_add]
    norm_num
  refine ⟨hp, zero_le_one, h, hscaled, (hpruned _ ?_).mpr ?_, (hpruned _ ?_).not.mpr ?_⟩
  · exact num_le_num.mpr (by norm_num)
  · rw [hsum, num_mul, num_lt_num]
    norm_num
  · exact num_le_num.mpr (by norm_num)
  · rw [hsum, num_mul, num_lt_num]
    norm_num

end Tracker

end MinkowskiBounds
