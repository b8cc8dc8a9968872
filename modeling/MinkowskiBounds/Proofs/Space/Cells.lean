import Mathlib.Algebra.BigOperators.Group.List.Basic
import Mathlib.Algebra.Group.Prod
import Mathlib.Algebra.Order.Monoid.WithTop
import MinkowskiBounds.Proofs.Space.Numbers

/-!
# Endless boxes

The cells of a search tree may be endless: lower ends are numbers or infinitely far below, upper ends
numbers or infinitely far above. Between such boxes no separation is undefined. The gap along an axis
is a number, and the reach a number or infinite: a number exactly where all four ends are numbers
(`Interval.exists_separation_cell`).

What is infinite in this one direction is a number with a top (`Extended.ofTop`), and sums of it are
sums in `WithTop`. Differences are not: of a difference with the top nothing is left.
-/

namespace MinkowskiBounds

variable {K : Type} [Field K] [LinearOrder K] [FloorRing K] [Powers K]

/-! ## Numbers and infinity -/

namespace Extended

/-- Numbers, and the value above them. -/
def ofTop : WithTop K → Extended K
  | none => inf false
  | some x => num x

omit [Field K] [LinearOrder K] [FloorRing K] [Powers K] in
@[simp] theorem ofTop_top : ofTop (⊤ : WithTop K) = inf false := rfl

omit [Field K] [LinearOrder K] [FloorRing K] [Powers K] in
@[simp] theorem ofTop_coe (x : K) : ofTop (x : WithTop K) = num x := rfl

omit [Field K] [LinearOrder K] [FloorRing K] [Powers K] in
theorem ofTop_ne_nan (x : WithTop K) : ofTop x ≠ nan := by
  cases x with
  | top => nofun
  | coe x => nofun

omit [Field K] [LinearOrder K] [FloorRing K] [Powers K] in
theorem isNum_ofTop_iff (x : WithTop K) : (ofTop x).isNum ↔ x ≠ ⊤ := by
  cases x with
  | top => exact iff_of_false nofun fun h => h rfl
  | coe x => exact iff_of_true rfl WithTop.coe_ne_top

theorem ofTop_add (x y : WithTop K) : ofTop (x + y) = ofTop x + ofTop y := by
  cases x <;> cases y <;> rfl

theorem ofTop_sub_neg (x y : WithTop K) : ofTop x - -ofTop y = ofTop (x + y) := by
  cases x with
  | top => cases y <;> rfl
  | coe x => cases y with
    | top => rfl
    | coe y => rw [ofTop_coe, ofTop_coe, neg_num, num_sub, sub_neg_eq_add, ← WithTop.coe_add,
        ofTop_coe]

theorem neg_ofTop_sub (x y : WithTop K) : -ofTop x - ofTop y = -ofTop (x + y) := by
  cases x with
  | top => cases y <;> rfl
  | coe x => cases y with
    | top => rfl
    | coe y => rw [ofTop_coe, ofTop_coe, neg_num, num_sub, ← neg_add', ← WithTop.coe_add, ofTop_coe,
        neg_num]

theorem max_ofTop (x y : WithTop K) : Scalar.max (ofTop x) (ofTop y) = ofTop (max x y) := by
  cases y with
  | top =>
    rw [max_eq_right le_top, ofTop_top]
    cases x <;> rfl
  | coe y => cases x with
    | top =>
      rw [max_eq_left le_top]
      rfl
    | coe x => rw [ofTop_coe, ofTop_coe, max_num, ← WithTop.coe_max, ofTop_coe]

theorem max_num_neg_inf (x : K) : Scalar.max (num x) (inf true) = num x := by
  show (if (false || num x != num x) = true then inf true else num x) = num x
  simp [bne]

/-- Zero bounds from below what is infinite in the other direction. -/
theorem exists_max_zero_neg_ofTop (x y : WithTop K) :
    ∃ l : K, Scalar.max 0 (Scalar.max (-ofTop x) (-ofTop y)) = num l := by
  have hnum : ∀ z : K, Scalar.max 0 (num z) = num (max 0 z) := max_num 0
  cases x with
  | top => cases y with
    | top => exact ⟨0, max_num_neg_inf 0⟩
    | coe y => exact ⟨_, hnum (-y)⟩
  | coe x => cases y with
    | top => exact ⟨_, (congrArg (Scalar.max 0) (max_num_neg_inf (-x))).trans (hnum (-x))⟩
    | coe y => exact ⟨_, (congrArg (Scalar.max 0) (max_num (-x) (-y))).trans (hnum _)⟩

end Extended

open Extended

/-! ## Cells -/

/-- The lower end is a number or infinitely far below, the upper end one or infinitely far above. -/
def Interval.IsCell (I : Interval (Extended K)) : Prop :=
  (I.lo = inf true ∨ ∃ x, I.lo = num x) ∧ (I.hi = inf false ∨ ∃ y, I.hi = num y)

/-- All sides are numbers or endless. -/
def Box.IsCell (b : Box (Extended K)) : Prop := ∀ I ∈ b.axes, I.IsCell

/-- The two boxes are not endless along the axis. -/
def Box.ClosedAlong (a b : Box (Extended K)) (axis : Nat) : Prop :=
  (∀ I ∈ a.axes[axis]?, I.IsNum) ∧ ∀ J ∈ b.axes[axis]?, J.IsNum

variable {I J : Interval (Extended K)} {a b : Box (Extended K)}

/-- A cell reaches from a number with a top below zero to one above zero. -/
theorem Interval.IsCell.exists_ofTop (h : I.IsCell) : ∃ below above : WithTop K,
    I = ⟨-ofTop below, ofTop above⟩ ∧ (I.IsNum ↔ below ≠ ⊤ ∧ above ≠ ⊤) := by
  obtain ⟨lo, hi⟩ := I
  have hneg : ∀ x : K, num x = -ofTop ((-x : K) : WithTop K) := fun x => by
    rw [ofTop_coe, neg_num, neg_neg]
  have hbelow : ∃ below : WithTop K, lo = -ofTop below ∧ (below ≠ ⊤ ↔ ∃ x, lo = num x) := by
    rcases h.1 with hlo | ⟨x, hlo⟩ <;> cases hlo
    · exact ⟨⊤, rfl, by simp⟩
    · exact ⟨_, hneg x, iff_of_true WithTop.coe_ne_top ⟨x, rfl⟩⟩
  have habove : ∃ above : WithTop K, hi = ofTop above ∧ (above ≠ ⊤ ↔ ∃ y, hi = num y) := by
    rcases h.2 with hhi | ⟨y, hhi⟩ <;> cases hhi
    · exact ⟨⊤, rfl, by simp⟩
    · exact ⟨y, rfl, iff_of_true WithTop.coe_ne_top ⟨y, rfl⟩⟩
  obtain ⟨below, hlo, hbelow⟩ := hbelow
  obtain ⟨above, hhi, habove⟩ := habove
  refine ⟨below, above, by rw [hlo, hhi], ?_⟩
  rw [hbelow, habove]
  simp [IsNum]

/-- **Between cells the gap is a number, and the reach one unless an end is infinite.** -/
theorem Interval.exists_separation_cell (hI : I.IsCell) (hJ : J.IsCell) :
    ∃ (l : K) (g : WithTop K), I.separation J = ⟨num l, ofTop g⟩ ∧ (g ≠ ⊤ ↔ I.IsNum ∧ J.IsNum) := by
  obtain ⟨a, b, rfl, hI⟩ := hI.exists_ofTop
  obtain ⟨c, d, rfl, hJ⟩ := hJ.exists_ofTop
  obtain ⟨l, hl⟩ := exists_max_zero_neg_ofTop (a + d) (c + b)
  refine ⟨l, max (b + c) (d + a), ?_, ?_⟩
  · simp only [separation, gap, reach, neg_ofTop_sub, ofTop_sub_neg, max_ofTop, hl]
  · rw [hI, hJ, ne_eq, max_eq_top, WithTop.add_eq_top, WithTop.add_eq_top]
    tauto

/-! ## Sums with a top -/

namespace Bounds

/-- A number, and one with a top. -/
def ofTop (r : K × WithTop K) : Bounds (Extended K) := ⟨num r.1, Extended.ofTop r.2⟩

theorem ofTop_add (r r' : K × WithTop K) : ofTop (r + r') = ofTop r + ofTop r' :=
  congrArg₂ Bounds.mk rfl (Extended.ofTop_add r.2 r'.2)

theorem foldl_ofTop (rs : List (K × WithTop K)) :
    (rs.map ofTop).foldl (· + ·) .zero = ofTop rs.sum := by
  induction rs using List.reverseRecOn with
  | nil => rfl
  | append_singleton rs r ih =>
    rw [List.map_append, List.foldl_append, ih, List.sum_append, List.sum_singleton, ofTop_add]
    rfl

end Bounds

/-! ## Contributions of cells -/

theorem Bounds.exists_map_term_ofTop {n : Norm (Extended K)} (hn : n.IsElementary)
    (r : K × WithTop K) : ∃ r', (ofTop r).map n.term = ofTop r' ∧ (r'.2 ≠ ⊤ ↔ r.2 ≠ ⊤) := by
  obtain ⟨l, g⟩ := r
  rcases hn with rfl | rfl
  · cases g with
    | top => exact ⟨(l * l, ⊤), rfl, Iff.rfl⟩
    | coe g =>
      exact ⟨(l * l, (g * g : K)), rfl, iff_of_true WithTop.coe_ne_top WithTop.coe_ne_top⟩
  · exact ⟨(l, g), rfl, Iff.rfl⟩

/-- What cells contribute along an axis is infinite exactly if one of them is endless along it. -/
theorem Space.exists_share_cell {n : Norm (Extended K)} (hn : n.IsElementary)
    (ha : a.IsCell) (hb : b.IsCell) {i : Nat} {s : Bounds (Extended K)}
    (hs : (Space.unbounded.separations a b)[i]? = some s) :
    ∃ r, s.map n.term = Bounds.ofTop r ∧ (r.2 ≠ ⊤ ↔ a.ClosedAlong b i) := by
  rw [separations_unbounded, List.getElem?_zipWith_eq_some] at hs
  obtain ⟨I, J, hI, hJ, rfl⟩ := hs
  obtain ⟨l, g, hlg, hg⟩ := Interval.exists_separation_cell (ha I (List.mem_of_getElem? hI))
    (hb J (List.mem_of_getElem? hJ))
  obtain ⟨r, hr, htop⟩ := Bounds.exists_map_term_ofTop hn (l, g)
  refine ⟨r, hlg ▸ hr, ?_⟩
  rw [htop, hg, Box.ClosedAlong, hI, hJ]
  simp

end MinkowskiBounds
