import MinkowskiBounds.Proofs.Scalar.Rounded

/-!
# Arithmetic in which totals never shrink

What machine numbers and exact ones have in common, as far as sums of sizes go. Comparisons order all
values but those that are not numbers (`Scalar.Ordered`), and a sum is not below what it was before
something that is not below zero was added (`Scalar.Growing`).

What is not a number is told by not being equal to itself, and no sum with it is a number again.

* `Extended.growing` — exact numbers with infinities
* `Rounded.growing` — numbers whose results are rounded
-/

namespace MinkowskiBounds

namespace Scalar

variable {α : Type} [Scalar α]

/-- The value equals itself, which is so of all but those that are not numbers. -/
def IsDefined (a : α) : Prop := (a == a) = true

instance (a : α) : Decidable (IsDefined a) := inferInstanceAs (Decidable ((a == a) = true))

/-- Comparisons order the values that are defined, and hold of no others. -/
structure Ordered (α : Type) [Scalar α] : Prop where
  defined_zero : IsDefined (0 : α)
  defined_of_le : ∀ {a b : α}, a ≤ b → IsDefined a ∧ IsDefined b
  le_of_lt : ∀ {a b : α}, a < b → a ≤ b
  le_trans : ∀ {a b c : α}, a ≤ b → b ≤ c → a ≤ c
  not_le : ∀ {a b : α}, IsDefined a → IsDefined b → (¬ a ≤ b ↔ b < a)
  not_infinity_lt : ∀ a : α, ¬ infinity < a

/-- Zero, or the result of an addition. -/
def IsSum (a : α) : Prop := a = 0 ∨ ∃ b c, a = b + c

/-- Sizes, squares and powers of sizes are not below zero, and sums do not shrink when something that
is not below zero is added to them. -/
structure Growing (α : Type) [Scalar α] : Prop extends Ordered α where
  abs_nonneg : ∀ {a : α}, IsDefined (abs a) → 0 ≤ abs a
  mul_self_nonneg : ∀ {a : α}, IsDefined (a * a) → 0 ≤ a * a
  pow_abs_nonneg : ∀ {a p : α}, IsDefined (pow (abs a) p) → 0 ≤ pow (abs a) p
  defined_of_add : ∀ {a b : α}, IsDefined (a + b) → IsDefined a ∧ IsDefined b
  le_add : ∀ {a b : α}, IsSum a → 0 ≤ b → IsDefined (a + b) → a ≤ a + b

namespace Ordered

variable {a b : α}

theorem le_refl (h : Ordered α) (ha : IsDefined a) : a ≤ a := by
  by_contra hnot
  exact hnot (h.le_of_lt ((h.not_le ha ha).mp hnot))

theorem not_lt_of_le (h : Ordered α) (hab : a ≤ b) : ¬ b < a := by
  obtain ⟨ha, hb⟩ := h.defined_of_le hab
  intro hlt
  exact (h.not_le ha hb).mpr hlt hab

theorem le_max (h : Ordered α) (ha : IsDefined a) (b : α) : a ≤ Scalar.max a b := by
  have hself : (a != a) = false := by
    unfold IsDefined at ha
    simp [bne, ha]
  unfold Scalar.max
  split
  · next hlt => exact h.le_of_lt (by simpa [hself] using hlt)
  · exact h.le_refl ha

end Ordered

end Scalar

open Scalar

variable {K : Type} [Field K] [LinearOrder K] [FloorRing K] [Powers K]

/-! ## Exact numbers -/

namespace Extended

variable {a b : Extended K}

theorem isDefined_iff : IsDefined a ↔ a ≠ nan := by
  show a.beq a = true ↔ a ≠ nan
  cases a <;> simp [Extended.beq]

theorem lt_iff : a < b ↔ a.lt b = true := Iff.rfl

theorem le_iff : a ≤ b ↔ (a.lt b || a.beq b) = true := Iff.rfl

theorem ordered : Ordered (Extended K) where
  defined_zero := isDefined_iff.mpr nofun
  defined_of_le {a b} h := by
    rw [isDefined_iff, isDefined_iff]
    cases a <;> cases b <;> simp_all [le_iff, Extended.lt, Extended.beq]
  le_of_lt h := by
    rw [le_iff, lt_iff.mp h, Bool.true_or]
  le_trans {a b c} hab hbc := by
    cases b with
    | num b => cases a with
      | num a => cases c with
        | num c => exact num_le_num.mpr ((num_le_num.mp hab).trans (num_le_num.mp hbc))
        | inf s => exact hbc
        | nan => exact hbc
      | inf s => cases c <;> cases s <;> simp_all [le_iff, Extended.lt, Extended.beq]
      | nan => exact absurd hab Bool.false_ne_true
    | inf s => cases a <;> cases c <;> cases s <;> simp_all [le_iff, Extended.lt, Extended.beq]
    | nan => cases a <;> simp [le_iff, Extended.lt, Extended.beq] at hab
  not_le {a b} ha hb := by
    rw [isDefined_iff] at ha hb
    cases a with
    | num a => cases b with
      | num b => rw [num_le_num, num_lt_num, not_le]
      | inf s => cases s <;> simp [le_iff, lt_iff, Extended.lt, Extended.beq]
      | nan => exact absurd rfl hb
    | inf s => cases b with
      | num b => cases s <;> simp [le_iff, lt_iff, Extended.lt, Extended.beq]
      | inf s' => cases s <;> cases s' <;> simp [le_iff, lt_iff, Extended.lt, Extended.beq]
      | nan => exact absurd rfl hb
    | nan => exact absurd rfl ha
  not_infinity_lt := not_inf_lt

theorem lt_or_eq_of_le (h : a ≤ b) : a < b ∨ a = b := by
  obtain ⟨ha, hb⟩ := ordered.defined_of_le h
  by_cases hlt : a < b
  · exact .inl hlt
  · have hge : b ≤ a := by
      by_contra hnot
      exact hlt ((ordered.not_le hb ha).mp hnot)
    exact .inr (eq_of_le_of_ge h hge)

/-- What is not below zero is a number that is not, or infinite. -/
theorem zero_le_iff : 0 ≤ a ↔ (∃ x, 0 ≤ x ∧ a = num x) ∨ a = inf false := by
  cases a with
  | num x => simp [← num_zero]
  | inf s => cases s <;> simp [le_iff, ← num_zero, Extended.lt, Extended.beq]
  | nan => simp [le_iff, ← num_zero, Extended.lt, Extended.beq]

/-- What is above zero is a number that is, or infinite. -/
theorem zero_lt_iff : 0 < a ↔ (∃ x, 0 < x ∧ a = num x) ∨ a = inf false := by
  cases a with
  | num x => simp [← num_zero]
  | inf s => cases s <;> simp [lt_iff, ← num_zero, Extended.lt]
  | nan => simp [lt_iff, ← num_zero, Extended.lt]

theorem isSum (a : Extended K) : IsSum a := by
  refine .inr ⟨a, 0, ?_⟩
  cases a with
  | num x => exact congrArg num (add_zero x).symm
  | inf s => rfl
  | nan => rfl

/-- Powers of sizes are not below zero. -/
def PowersNonneg (K : Type) [Field K] [LinearOrder K] [FloorRing K] [Powers K] : Prop :=
  ∀ {a p : Extended K}, IsDefined (Scalar.pow (Scalar.abs a) p) → 0 ≤ Scalar.pow (Scalar.abs a) p

variable [IsStrictOrderedRing K]

/-- **Totals of exact numbers never shrink.** -/
theorem growing (hpow : PowersNonneg K) : Growing (Extended K) where
  toOrdered := ordered
  abs_nonneg {a} h := by
    cases a with
    | num a => exact num_le_num.mpr (abs_nonneg a)
    | inf s => exact ordered.le_of_lt (num_lt_inf 0)
    | nan => exact absurd rfl (isDefined_iff.mp h)
  mul_self_nonneg {a} h := by
    cases a with
    | num a => exact num_le_num.mpr (mul_self_nonneg a)
    | inf s =>
      show (0 : Extended K) ≤ inf (s ^^ s)
      rw [Bool.xor_self]
      exact ordered.le_of_lt (num_lt_inf 0)
    | nan => exact absurd rfl (isDefined_iff.mp h)
  pow_abs_nonneg := hpow
  defined_of_add {a b} h := by
    rw [isDefined_iff] at h ⊢
    rw [isDefined_iff]
    constructor
    · rintro rfl
      exact h rfl
    · rintro rfl
      cases a <;> exact h rfl
  le_add {a b} _ hb h := by
    rcases zero_le_iff.mp hb with ⟨x, hx, rfl⟩ | rfl
    · cases a with
      | num a => exact num_le_num.mpr (le_add_of_nonneg_right hx)
      | inf s => exact ordered.le_refl h
      | nan => exact absurd rfl (isDefined_iff.mp h)
    · cases a with
      | num a => exact ordered.le_of_lt (num_lt_inf a)
      | inf s => cases s with
        | false => exact ordered.le_refl h
        | true => exact absurd rfl (isDefined_iff.mp h)
      | nan => exact absurd rfl (isDefined_iff.mp h)

theorem powersNonneg_rat : PowersNonneg ℚ := by
  intro a p h
  cases a with
  | num a => cases p with
    | num p =>
      replace h : (if p = p.num.toNat then num (|a| ^ p.num.toNat) else nan) ≠ nan :=
        isDefined_iff.mp h
      show 0 ≤ if p = p.num.toNat then num (|a| ^ p.num.toNat) else nan
      split at h
      · next hp =>
        rw [if_pos hp]
        exact num_le_num.mpr (pow_nonneg (abs_nonneg a) _)
      · exact absurd rfl h
    | inf s => exact absurd rfl (isDefined_iff.mp h)
    | nan => exact absurd rfl (isDefined_iff.mp h)
  | inf s => exact absurd rfl (isDefined_iff.mp h)
  | nan => exact absurd rfl (isDefined_iff.mp h)

end Extended

/-! ## Rounded numbers -/

open Extended

/-- Rounding keeps the order of what is not a number, too. -/
theorem Extended.map_le_map {f : K → K} (hf : Monotone f) {a b : Extended K} (h : a ≤ b) :
    a.map f ≤ b.map f := by
  cases a with
  | num a => cases b with
    | num b => exact num_le_num.mpr (hf (num_le_num.mp h))
    | inf s => exact h
    | nan => exact h
  | inf s => cases b with
    | num b => cases s with
      | false => exact absurd h Bool.false_ne_true
      | true => rfl
    | inf s' => exact h
    | nan => exact h
  | nan => exact absurd h Bool.false_ne_true

variable {rnd : K → K}

theorem Extended.isDefined_of_map {f : K → K} {a : Extended K} (h : IsDefined (a.map f)) :
    IsDefined a := by
  rw [isDefined_iff] at h ⊢
  rintro rfl
  exact h rfl

/-- The result of an addition is one of those that rounding leaves where they are. -/
theorem Rounded.map_of_isSum (hrnd : IsRounding rnd) {a : Rounded rnd} (h : IsSum a) :
    Extended.map rnd a = a := by
  rcases h with rfl | ⟨b, c, rfl⟩
  · exact congrArg num hrnd.zero
  · show ((Extended.add b c).map rnd).map rnd = (Extended.add b c).map rnd
    cases Extended.add b c with
    | num s => exact congrArg num (hrnd.idem s)
    | inf s => rfl
    | nan => rfl

/-- **Totals of rounded numbers never shrink**, because rounding leaves a total where it is. -/
theorem Rounded.growing [IsStrictOrderedRing K] (hrnd : IsRounding rnd) (hpow : PowersNonneg K) :
    Growing (Rounded rnd) := by
  have h : Growing (Extended K) := Extended.growing hpow
  have hzero : (0 : Extended K).map rnd = 0 := congrArg num hrnd.zero
  refine { defined_zero := h.defined_zero, defined_of_le := h.defined_of_le, le_of_lt := h.le_of_lt,
           le_trans := h.le_trans, not_le := h.not_le, not_infinity_lt := h.not_infinity_lt,
           abs_nonneg := h.abs_nonneg, pow_abs_nonneg := h.pow_abs_nonneg,
           mul_self_nonneg := ?_, defined_of_add := ?_, le_add := ?_ }
  · intro (a : Extended K) ha
    have hle := map_le_map hrnd.mono (h.mul_self_nonneg (isDefined_of_map (f := rnd) ha))
    rwa [hzero] at hle
  · intro a b hab
    exact h.defined_of_add (isDefined_of_map (f := rnd) hab)
  · intro (a : Extended K) (b : Extended K) ha hb hab
    have hle := map_le_map hrnd.mono
      (h.le_add (isSum a) hb (isDefined_of_map (f := rnd) hab))
    rwa [map_of_isSum hrnd ha] at hle

end MinkowskiBounds
