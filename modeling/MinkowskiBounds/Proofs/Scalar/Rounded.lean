import Mathlib.Data.Int.Log
import Mathlib.Tactic.Linarith
import Mathlib.Tactic.Positivity
import Mathlib.Tactic.Ring
import MinkowskiBounds.Proofs.Scalar.Extended

/-!
# Rounded numbers as scalars

Numbers of which sums, differences and products are rounded, each once, by some function. Rounding
leads from numbers to numbers, so that nothing overflows. Which numbers a result may be rounded to is
left open: most of what is proved needs only that rounding keeps the order and leaves a number that
it has yielded where it is (`IsRounding`).

Rounding to the nearest number with a given count of significant bits, a tie going to the even
significand, is of this kind (`isRounding_roundTo`). That it is follows from one property: no number
with as many bits is nearer (`abs_roundTo_sub_le`).

## Contents

* `roundEven`, `roundTo` — rounding to whole numbers, and to numbers with so many significant bits
* `Rounded`, `Binary` — the scalars
-/

namespace MinkowskiBounds

open Extended

/-! ## Rounding to whole numbers -/

/-- The nearest whole number; a half goes to the even one of its neighbours. -/
def roundEven (x : ℚ) : ℤ :=
  if x - ⌊x⌋ < 1 / 2 then ⌊x⌋
  else if 1 / 2 < x - ⌊x⌋ then ⌊x⌋ + 1
  else ⌊x⌋ + ⌊x⌋ % 2

theorem abs_roundEven_sub_le_half (x : ℚ) : |(roundEven x : ℚ) - x| ≤ 1 / 2 := by
  have hlo := Int.floor_le x
  have hhi := Int.lt_floor_add_one x
  rw [abs_le]
  unfold roundEven
  split
  · constructor <;> linarith
  · split
    · push_cast
      constructor <;> linarith
    · rcases Int.emod_two_eq_zero_or_one ⌊x⌋ with h | h <;>
      · rw [h]
        push_cast
        constructor <;> linarith

/-- No whole number is nearer. -/
theorem abs_roundEven_sub_le (x : ℚ) (k : ℤ) : |(roundEven x : ℚ) - x| ≤ |(k : ℚ) - x| := by
  by_cases hk : roundEven x = k
  · rw [hk]
  · have hone : (1 : ℚ) ≤ |(roundEven x : ℚ) - k| := by
      exact_mod_cast Int.one_le_abs (sub_ne_zero.mpr hk)
    have hhalf := abs_roundEven_sub_le_half x
    have htriangle := abs_sub_le (roundEven x : ℚ) x k
    rw [abs_sub_comm x] at htriangle
    linarith

/-- Less than a half is rounded off. -/
theorem roundEven_intCast_add {z : ℤ} {f : ℚ} (h0 : 0 ≤ f) (hf : f < 1 / 2) :
    roundEven (z + f) = z := by
  have hfloor : ⌊(z + f : ℚ)⌋ = z := by
    rw [Int.floor_intCast_add, Int.floor_eq_zero_iff.mpr ⟨h0, by linarith⟩, add_zero]
  unfold roundEven
  rw [hfloor, if_pos (by linarith)]

/-- Rounding does not pass a whole number in size. -/
theorem abs_roundEven_le {x : ℚ} {n : ℤ} (h : |x| ≤ n) : |roundEven x| ≤ n := by
  have hsize : |(roundEven x : ℚ)| < n + 1 := by
    have htriangle := abs_add_le ((roundEven x : ℚ) - x) x
    rw [sub_add_cancel] at htriangle
    linarith [abs_roundEven_sub_le_half x]
  have hcast : |roundEven x| < n + 1 := by exact_mod_cast hsize
  omega

/-! ## Rounding to significant bits -/

/-- The numbers with at most so many significant bits. -/
def HasBits (bits : ℕ) (g : ℚ) : Prop := ∃ m e : ℤ, |m| ≤ 2 ^ bits ∧ g = m * 2 ^ e

theorem hasBits_zero (bits : ℕ) : HasBits bits 0 := ⟨0, 0, by positivity, by simp⟩

theorem hasBits_two_pow (bits k : ℕ) : HasBits bits (2 ^ k) :=
  ⟨1, k, by rw [abs_one]; exact one_le_pow₀ one_le_two, by simp⟩

/-- How far the numbers with so many significant bits lie apart next to `x`. -/
def spacing (bits : ℕ) (x : ℚ) : ℚ := 2 ^ (Int.log 2 |x| + 1 - bits)

/-- The nearest number with so many significant bits; of two, the one with the even significand. -/
def roundTo (bits : ℕ) (x : ℚ) : ℚ := roundEven (x / spacing bits x) * spacing bits x

variable {bits : ℕ} {x : ℚ}

theorem spacing_pos (bits : ℕ) (x : ℚ) : 0 < spacing bits x := zpow_pos two_pos _

theorem two_pow_mul_spacing (bits : ℕ) (x : ℚ) :
    2 ^ bits * spacing bits x = 2 ^ (Int.log 2 |x| + 1) := by
  rw [spacing, ← zpow_natCast, ← zpow_add₀ two_ne_zero]
  congr 1
  ring

theorem abs_lt_two_pow_mul_spacing (bits : ℕ) (x : ℚ) : |x| < 2 ^ bits * spacing bits x := by
  rw [two_pow_mul_spacing]
  exact_mod_cast Int.lt_zpow_succ_log_self Nat.one_lt_two |x|

/-- What is rounded to has as many bits as asked for. -/
theorem hasBits_roundTo (bits : ℕ) (x : ℚ) : HasBits bits (roundTo bits x) := by
  refine ⟨_, _, abs_roundEven_le ?_, rfl⟩
  rw [abs_div, abs_of_pos (spacing_pos bits x), div_le_iff₀ (spacing_pos bits x)]
  exact_mod_cast (abs_lt_two_pow_mul_spacing bits x).le

@[simp] theorem roundTo_zero (bits : ℕ) : roundTo bits 0 = 0 := by
  simp [roundTo, roundEven]

theorem abs_roundTo_sub_eq (bits : ℕ) (x : ℚ) (k : ℚ) :
    |k * spacing bits x - x| = |k - x / spacing bits x| * spacing bits x := by
  have hs := spacing_pos bits x
  rw [← abs_of_pos hs, ← abs_mul, abs_of_pos hs, sub_mul, div_mul_cancel₀ x hs.ne']

/-- No multiple of the spacing is nearer. -/
theorem abs_roundTo_sub_le_mul (bits : ℕ) (x : ℚ) (k : ℤ) :
    |roundTo bits x - x| ≤ |k * spacing bits x - x| := by
  rw [roundTo, abs_roundTo_sub_eq, abs_roundTo_sub_eq]
  exact mul_le_mul_of_nonneg_right (abs_roundEven_sub_le _ k) (spacing_pos bits x).le

theorem two_zpow_log_le (hx : x ≠ 0) : (2 : ℚ) ^ Int.log 2 |x| ≤ |x| := by
  exact_mod_cast Int.zpow_log_le_self Nat.one_lt_two (abs_pos.mpr hx)

theorem two_pow_pred_mul_spacing (hbits : 0 < bits) (x : ℚ) :
    (2 ^ (bits - 1) : ℤ) * spacing bits x = (2 : ℚ) ^ Int.log 2 |x| := by
  rw [spacing]
  push_cast
  rw [← zpow_natCast, ← zpow_add₀ two_ne_zero]
  congr 1
  omega

/-- Numbers of a scale finer than the spacing lie below the power of two next to `x`. -/
theorem abs_le_two_zpow_log {m e : ℤ} (hm : |m| ≤ 2 ^ bits) (he : e < Int.log 2 |x| + 1 - bits) :
    |(m * 2 ^ e : ℚ)| ≤ 2 ^ Int.log 2 |x| := by
  have hm' : |(m : ℚ)| ≤ 2 ^ bits := by exact_mod_cast hm
  have he' : (2 : ℚ) ^ e ≤ 2 ^ (Int.log 2 |x| - bits) := zpow_le_zpow_right₀ one_le_two (by omega)
  have hpos : (0 : ℚ) < 2 ^ e := zpow_pos two_pos e
  calc |(m * 2 ^ e : ℚ)| = |(m : ℚ)| * 2 ^ e := by rw [abs_mul, abs_of_pos hpos]
    _ ≤ 2 ^ bits * 2 ^ (Int.log 2 |x| - bits) := mul_le_mul hm' he' hpos.le (by positivity)
    _ = 2 ^ Int.log 2 |x| := by
      rw [← zpow_natCast, ← zpow_add₀ two_ne_zero]
      congr 1
      omega

/-- **No number with as many bits is nearer.** -/
theorem abs_roundTo_sub_le (hbits : 0 < bits) {g : ℚ} (hg : HasBits bits g) :
    |roundTo bits x - x| ≤ |g - x| := by
  obtain ⟨m, e, hm, rfl⟩ := hg
  rcases eq_or_ne x 0 with rfl | hx
  · rw [roundTo_zero, sub_zero, abs_zero]
    exact abs_nonneg _
  rcases le_or_gt (Int.log 2 |x| + 1 - bits) e with hcoarse | hfine
  · -- the number is a multiple of the spacing
    obtain ⟨j, hj⟩ := Int.eq_ofNat_of_zero_le (sub_nonneg.mpr hcoarse)
    have hmultiple : (m * 2 ^ e : ℚ) = (m * 2 ^ j : ℤ) * spacing bits x := by
      have he : e = j + (Int.log 2 |x| + 1 - bits) := by omega
      rw [spacing, he, zpow_add₀ two_ne_zero, zpow_natCast]
      push_cast
      ring
    rw [hmultiple]
    exact abs_roundTo_sub_le_mul bits x _
  · -- between the number and `x` lies a power of two, which is a multiple of the spacing
    have hpower := two_zpow_log_le hx
    have hmultiple := two_pow_pred_mul_spacing hbits x
    have hsmall := abs_le.mp (abs_le_two_zpow_log hm hfine)
    rcases hx.lt_or_gt with hneg | hpos
    · replace hpower := hpower.trans_eq (abs_of_neg hneg)
      refine (abs_roundTo_sub_le_mul bits x (-2 ^ (bits - 1))).trans ?_
      rw [Int.cast_neg, neg_mul, hmultiple]
      generalize (2 : ℚ) ^ Int.log 2 |x| = power at *
      rw [abs_of_nonneg (by linarith), abs_of_nonneg (by linarith)]
      linarith
    · replace hpower := hpower.trans_eq (abs_of_pos hpos)
      refine (abs_roundTo_sub_le_mul bits x (2 ^ (bits - 1))).trans ?_
      rw [hmultiple]
      generalize (2 : ℚ) ^ Int.log 2 |x| = power at *
      rw [abs_of_nonpos (by linarith), abs_of_nonpos (by linarith)]
      linarith

/-- A number with as many bits as asked for stays where it is. -/
theorem roundTo_of_hasBits (hbits : 0 < bits) (hx : HasBits bits x) : roundTo bits x = x := by
  have h := abs_roundTo_sub_le (x := x) hbits hx
  rw [sub_self, abs_zero] at h
  exact sub_eq_zero.mp (abs_nonpos_iff.mp h)

/-- A power of two beyond all bits absorbs one. -/
theorem roundTo_two_pow_add_one (hbits : 0 < bits) {k : ℕ} (hk : bits < k) :
    roundTo bits (2 ^ k + 1) = 2 ^ k := by
  have hone : (1 : ℚ) < 2 ^ k := one_lt_pow₀ one_lt_two (by omega)
  have hlog : Int.log 2 |(2 ^ k + 1 : ℚ)| = k := by
    have hpos : (0 : ℚ) < 2 ^ k + 1 := by positivity
    rw [abs_of_pos hpos]
    refine le_antisymm (Int.lt_add_one_iff.mp ?_) ?_
    · rw [← Int.lt_zpow_iff_log_lt Nat.one_lt_two hpos]
      push_cast
      rw [zpow_add₀ two_ne_zero, zpow_natCast, zpow_one]
      linarith
    · rw [← Int.zpow_le_iff_le_log Nat.one_lt_two hpos]
      push_cast
      rw [zpow_natCast]
      linarith
  have hmultiple := two_pow_pred_mul_spacing hbits (2 ^ k + 1)
  rw [hlog, zpow_natCast] at hmultiple
  have hspacing : 2 < spacing bits (2 ^ k + 1) := by
    rw [spacing, hlog]
    calc (2 : ℚ) < 2 ^ (2 : ℤ) := by norm_num
      _ ≤ 2 ^ ((k : ℤ) + 1 - bits) := zpow_le_zpow_right₀ one_le_two (by omega)
  have hquotient : (2 ^ k + 1) / spacing bits (2 ^ k + 1)
      = (2 ^ (bits - 1) : ℤ) + 1 / spacing bits (2 ^ k + 1) := by
    generalize spacing bits (2 ^ k + 1) = s at *
    rw [← hmultiple, add_div, mul_div_cancel_right₀ _ (by linarith)]
  have hhalf : 1 / spacing bits (2 ^ k + 1) < 1 / 2 :=
    one_div_lt_one_div_of_lt two_pos hspacing
  rw [roundTo, hquotient, roundEven_intCast_add (by positivity) hhalf, hmultiple]

/-- Rounding keeps the order: numbers rounded the wrong way round would both be on the far side of the
middle between what they are rounded to. -/
theorem monotone_roundTo (hbits : 0 < bits) : Monotone (roundTo bits) := by
  intro x y hxy
  by_contra hlt
  rw [not_le] at hlt
  have hx := sq_le_sq.mpr (abs_roundTo_sub_le (x := x) hbits (hasBits_roundTo bits y))
  have hy := sq_le_sq.mpr (abs_roundTo_sub_le (x := y) hbits (hasBits_roundTo bits x))
  have hxmid : roundTo bits x + roundTo bits y ≤ 2 * x := by nlinarith
  have hymid : 2 * y ≤ roundTo bits x + roundTo bits y := by nlinarith
  obtain rfl : x = y := by linarith
  exact lt_irrefl _ hlt

/-! ## Rounded arithmetic -/

variable {K : Type} [Field K] [LinearOrder K]

/-- Rounding keeps the order, and leaves zero and whatever it has yielded where they are. -/
structure IsRounding (rnd : K → K) : Prop where
  mono : Monotone rnd
  idem : ∀ x, rnd (rnd x) = rnd x
  zero : rnd 0 = 0

theorem IsRounding.nonneg {rnd : K → K} (h : IsRounding rnd) {x : K} (hx : 0 ≤ x) : 0 ≤ rnd x :=
  h.zero.ge.trans (h.mono hx)

theorem isRounding_roundTo (hbits : 0 < bits) : IsRounding (roundTo bits) where
  mono := monotone_roundTo hbits
  idem x := roundTo_of_hasBits hbits (hasBits_roundTo bits x)
  zero := roundTo_zero bits

/-- Applies `f` to numbers. -/
def Extended.map (f : K → K) : Extended K → Extended K
  | num x => num (f x)
  | x => x

/-- Extended numbers of which sums, differences, products and quotients are rounded. -/
def Rounded (_ : K → K) : Type := Extended K

namespace Rounded

variable [FloorRing K] [Powers K] {rnd : K → K}

instance : Scalar (Rounded rnd) where
  zero := num 0
  one := num 1
  add a b := (a.add b).map rnd
  sub a b := (a.add b.neg).map rnd
  mul a b := (a.mul b).map rnd
  div a b := (a.div b).map rnd
  neg := Extended.neg
  beq := Extended.beq
  lt a b := a.lt b
  le a b := a.lt b || a.beq b
  infinity := inf false
  abs := Extended.abs
  round := Extended.round
  sqrt := Powers.sqrt
  pow := Powers.pow
  decideLT a b := inferInstanceAs (Decidable (Extended.lt a b = true))
  decideLE a b := inferInstanceAs (Decidable ((Extended.lt a b || Extended.beq a b) = true))

instance : DecidableEq (Rounded rnd) := inferInstanceAs (DecidableEq (Extended K))

/-- A number among the rounded ones. -/
def of (rnd : K → K) (x : K) : Rounded rnd := num x

theorem of_zero : of rnd 0 = 0 := rfl

theorem of_one : of rnd 1 = 1 := rfl

theorem of_add (x y : K) : of rnd x + of rnd y = of rnd (rnd (x + y)) := rfl

theorem of_sub (x y : K) : of rnd x - of rnd y = of rnd (rnd (x - y)) := by
  rw [sub_eq_add_neg]
  rfl

theorem of_mul (x y : K) : of rnd x * of rnd y = of rnd (rnd (x * y)) := rfl

theorem max_of (x y : K) : Scalar.max (of rnd x) (of rnd y) = of rnd (max x y) := max_num x y

theorem of_beq_of (x y : K) : (of rnd x == of rnd y) = decide (x = y) := rfl

theorem of_le_of {x y : K} : of rnd x ≤ of rnd y ↔ x ≤ y := num_le_num

end Rounded

/-- Numbers of which each result is rounded to so many significant bits. -/
abbrev Binary (bits : ℕ) : Type := Rounded (roundTo bits)

end MinkowskiBounds
