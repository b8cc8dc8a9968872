import Mathlib.Algebra.Order.Field.Basic
import Mathlib.Algebra.Order.Floor.Ring
import Mathlib.Data.Rat.Floor
import Mathlib.Data.Rat.Sqrt
import MinkowskiBounds.Scalar

/-!
# Exact numbers as scalars

The numbers of an ordered field, with the two infinities and a value that is not a number. On numbers
the operations are exact; elsewhere they follow the rules of floating point: opposite infinities have
no sum, nothing compares with what is not a number, and zero divides as from above.

Roots and powers are not given by the field. `Powers` leaves them open, so that what is proved holds
of any, and says what it needs of them.
-/

namespace MinkowskiBounds

/-- Numbers, infinities, and what is neither. -/
inductive Extended (K : Type) where
  /-- A number. -/
  | num (x : K)
  /-- What is above all numbers, or below them if `negative`. -/
  | inf (negative : Bool)
  /-- Not a number. -/
  | nan
deriving DecidableEq, Repr

/-- Square roots and powers. -/
class Powers (K : Type) where
  sqrt : Extended K → Extended K
  pow : Extended K → Extended K → Extended K

namespace Extended

variable {K : Type} [Field K] [LinearOrder K]

/-! ## Operations -/

protected def add : Extended K → Extended K → Extended K
  | num a, num b => num (a + b)
  | inf s, inf s' => if s = s' then inf s else nan
  | inf s, num _ => inf s
  | num _, inf s => inf s
  | _, _ => nan

protected def neg : Extended K → Extended K
  | num a => num (-a)
  | inf s => inf !s
  | nan => nan

protected def mul : Extended K → Extended K → Extended K
  | num a, num b => num (a * b)
  | inf s, inf s' => inf (s ^^ s')
  | inf s, num a => if a = 0 then nan else inf (s ^^ decide (a < 0))
  | num a, inf s => if a = 0 then nan else inf (s ^^ decide (a < 0))
  | _, _ => nan

protected def div : Extended K → Extended K → Extended K
  | num a, num b => if b ≠ 0 then num (a / b) else if a = 0 then nan else inf (a < 0)
  | inf s, num b => inf (s ^^ decide (b < 0))
  | num _, inf _ => num 0
  | _, _ => nan

protected def lt : Extended K → Extended K → Bool
  | num a, num b => a < b
  | inf s, inf s' => s && !s'
  | inf s, num _ => s
  | num _, inf s => !s
  | _, _ => false

protected def beq : Extended K → Extended K → Bool
  | num a, num b => a = b
  | inf s, inf s' => s == s'
  | _, _ => false

protected def abs : Extended K → Extended K
  | num a => num |a|
  | inf _ => inf false
  | nan => nan

variable [FloorRing K]

/-- The nearest whole number; a half goes away from zero. -/
def roundAway (a : K) : ℤ := if 0 ≤ a then ⌊a + 1 / 2⌋ else ⌈a - 1 / 2⌉

protected def round : Extended K → Extended K
  | num a => num (roundAway a)
  | inf s => inf s
  | nan => nan

instance [Powers K] : Scalar (Extended K) where
  zero := num 0
  one := num 1
  add := Extended.add
  sub a b := a.add b.neg
  mul := Extended.mul
  div := Extended.div
  neg := Extended.neg
  beq := Extended.beq
  lt a b := a.lt b
  le a b := a.lt b || a.beq b
  infinity := inf false
  abs := Extended.abs
  round := Extended.round
  sqrt := Powers.sqrt
  pow := Powers.pow
  decideLT a b := inferInstanceAs (Decidable (a.lt b = true))
  decideLE a b := inferInstanceAs (Decidable ((a.lt b || a.beq b) = true))

/-! ## Numbers -/

variable [Powers K] {a b : K}

theorem num_zero : num (0 : K) = 0 := rfl

theorem num_one : num (1 : K) = 1 := rfl

theorem num_two : (Scalar.two : Extended K) = num 2 := by
  rw [← one_add_one_eq_two]
  rfl

@[simp] theorem num_add (a b : K) : num a + num b = num (a + b) := rfl

@[simp] theorem num_sub (a b : K) : num a - num b = num (a - b) := by
  rw [sub_eq_add_neg]
  rfl

@[simp] theorem num_mul (a b : K) : num a * num b = num (a * b) := rfl

@[simp] theorem neg_num (a : K) : -num a = num (-a) := rfl

theorem num_div (a : K) (h : b ≠ 0) : num a / num b = num (a / b) := if_pos h

@[simp] theorem num_lt_num : num a < num b ↔ a < b := decide_eq_true_iff

@[simp] theorem num_le_num : num a ≤ num b ↔ a ≤ b := by
  show (Extended.lt (num a) (num b) || Extended.beq (num a) (num b)) = true ↔ a ≤ b
  simp [Extended.lt, Extended.beq, le_iff_lt_or_eq]

@[simp] theorem num_lt_inf (a : K) : num a < inf false := rfl

@[simp] theorem not_inf_lt (a : Extended K) : ¬ inf false < a := by
  cases a with
  | num a => exact Bool.false_ne_true
  | inf s => exact Bool.false_ne_true
  | nan => exact Bool.false_ne_true

@[simp] theorem num_beq_num : (num a == num b) = decide (a = b) := rfl

@[simp] theorem num_beq_infinity (a : K) : (num a == Scalar.infinity) = false := rfl

@[simp] theorem abs_num (a : K) : Scalar.abs (num a) = num |a| := rfl

@[simp] theorem round_num (a : K) : Scalar.round (num a) = num (roundAway a : K) := rfl

@[simp] theorem max_num (a b : K) : Scalar.max (num a) (num b) = num (max a b) := by
  unfold Scalar.max
  rcases lt_or_ge a b with h | h
  · simp [h, max_eq_right h.le, bne]
  · simp [h, bne]

@[simp] theorem min_num (a b : K) : Scalar.min (num a) (num b) = num (min a b) := by
  unfold Scalar.min
  rcases lt_or_ge b a with h | h
  · simp [h, min_eq_right h.le, bne]
  · simp [h, bne]

/-- Only numbers have a size that is one. -/
theorem abs_eq_num {x : Extended K} : Scalar.abs x = num a ↔ ∃ w, x = num w ∧ |w| = a := by
  cases x with
  | num w => simp
  | inf s => exact ⟨fun h => (nomatch h), fun ⟨_, h, _⟩ => (nomatch h)⟩
  | nan => exact ⟨fun h => (nomatch h), fun ⟨_, h, _⟩ => (nomatch h)⟩

/-- What lies between two numbers is one. -/
theorem exists_num_of_mem {x : Extended K} (hlo : num a ≤ x) (hhi : x ≤ num b) :
    ∃ c, x = num c ∧ a ≤ c ∧ c ≤ b := by
  cases x with
  | num c => exact ⟨c, rfl, num_le_num.mp hlo, num_le_num.mp hhi⟩
  | inf s => cases s with
    | false => exact absurd hhi Bool.false_ne_true
    | true => exact absurd hlo Bool.false_ne_true
  | nan => exact absurd hlo Bool.false_ne_true

/-- Values of which each is at most the other are the same. -/
theorem eq_of_le_of_ge {x y : Extended K} (hxy : x ≤ y) (hyx : y ≤ x) : x = y := by
  replace hxy : (x.lt y || x.beq y) = true := hxy
  replace hyx : (y.lt x || y.beq x) = true := hyx
  cases x with
  | num a => cases y with
    | num b => exact congrArg num (le_antisymm (num_le_num.mp hxy) (num_le_num.mp hyx))
    | inf s => cases s <;> simp [Extended.lt, Extended.beq] at hxy hyx
    | nan => simp [Extended.lt, Extended.beq] at hxy
  | inf s => cases y with
    | num b => cases s <;> simp [Extended.lt, Extended.beq] at hxy hyx
    | inf s' => cases s <;> cases s' <;> simp [Extended.lt, Extended.beq] at hxy hyx ⊢
    | nan => simp [Extended.lt, Extended.beq] at hxy
  | nan => simp [Extended.lt, Extended.beq] at hxy

/-! ## Sums -/

/-- Whether the value is a number. -/
def isNum : Extended K → Bool
  | num _ => true
  | inf _ => false
  | nan => false

protected theorem add_comm (x y : Extended K) : x + y = y + x := by
  cases x with
  | num a => cases y with
    | num b => exact congrArg num (add_comm a b)
    | inf s => rfl
    | nan => rfl
  | inf s => cases y with
    | num b => rfl
    | inf s' => cases s <;> cases s' <;> rfl
    | nan => rfl
  | nan => cases y <;> rfl

protected theorem add_assoc (x y z : Extended K) : x + y + z = x + (y + z) := by
  cases x with
  | num a => cases y with
    | num b => cases z with
      | num c => exact congrArg num (add_assoc a b c)
      | inf s => rfl
      | nan => rfl
    | inf s => cases z with
      | num c => rfl
      | inf s' => cases s <;> cases s' <;> rfl
      | nan => rfl
    | nan => cases z <;> rfl
  | inf s => cases y with
    | num b => cases z <;> rfl
    | inf s' => cases z with
      | num c => cases s <;> cases s' <;> rfl
      | inf s'' => cases s <;> cases s' <;> cases s'' <;> rfl
      | nan => cases s <;> cases s' <;> rfl
    | nan => cases z <;> rfl
  | nan => cases y <;> cases z <;> rfl

protected theorem zero_add (x : Extended K) : 0 + x = x := by
  cases x with
  | num a => exact congrArg num (zero_add a)
  | inf s => rfl
  | nan => rfl

/-- Sums do not depend on the order of their terms, what is infinite or undefined among them included. -/
abbrev addCommMonoid : AddCommMonoid (Extended K) where
  add_assoc := Extended.add_assoc
  zero_add := Extended.zero_add
  add_zero x := (Extended.add_comm x 0).trans (Extended.zero_add x)
  add_comm := Extended.add_comm
  nsmul := @nsmulRec (Extended K) ⟨0⟩ ⟨(· + ·)⟩

/-- What is undefined stays so. -/
theorem nan_add (x : Extended K) : nan + x = nan := by
  cases x <;> rfl

theorem nan_sub (x : Extended K) : nan - x = nan := by
  cases x <;> rfl

/-- **Only a number can be taken out of a sum again.** -/
theorem add_sub_self (x y : Extended K) : x + y - y = if y.isNum then x else nan := by
  cases y with
  | num b => cases x with
    | num a => exact (num_sub _ _).trans (congrArg num (add_sub_cancel_right a b))
    | inf s => rfl
    | nan => rfl
  | inf s => cases x with
    | num a => cases s <;> rfl
    | inf s' => cases s <;> cases s' <;> rfl
    | nan => rfl
  | nan => cases x <;> rfl

end Extended

/-! ## Rational numbers -/

open Extended

/-- The square roots and powers of rational numbers that are rational for sure: roots of squares, and
powers with natural exponents. All others are left undefined. -/
instance : Powers ℚ where
  sqrt
    | num a => if Rat.sqrt a * Rat.sqrt a = a then num (Rat.sqrt a) else nan
    | _ => nan
  pow
    | num a, num p => if p = p.num.toNat then num (a ^ p.num.toNat) else nan
    | _, _ => nan

theorem Extended.pow_natCast (a : ℚ) (k : ℕ) :
    Scalar.pow (num a) (num (k : ℚ)) = num (a ^ k) := by
  show (if (k : ℚ) = ((k : ℚ).num.toNat : ℚ) then num (a ^ (k : ℚ).num.toNat) else nan) = _
  rw [Rat.num_natCast, Int.toNat_natCast, if_pos rfl]

end MinkowskiBounds
