import MinkowskiBounds.Proofs.Axis.Extremes
import MinkowskiBounds.Proofs.Torus.Images

/-!
# Where nothing wraps

The short way from one point of a circle to another is the one on the line, as long as the line takes
it over at most half a period, or the period is infinite. There a torus measures as unbounded space
does: points (`Space.distance_periodic_eq_unbounded`), and boxes (`Space.separations_periodic_eq`).

At exactly half a period both ways are equally long. Wrapping may then turn a difference round, which
changes its sign but not its size, and sizes are all that a norm looks at.
-/

namespace MinkowskiBounds

open Extended

variable {K : Type} [Field K] [LinearOrder K] [FloorRing K] [Powers K]

/-! ## Half a period -/

/-- The period is infinite, or the difference is at most half of it in size. -/
def Circle.WithinHalf (c : Circle (Extended K)) (δ : Extended K) : Prop :=
  c.full = Scalar.infinity ∨ Scalar.abs δ ≤ c.half

instance (c : Circle (Extended K)) (δ : Extended K) : Decidable (c.WithinHalf δ) :=
  inferInstanceAs (Decidable (_ ∨ _))

namespace Torus

/-- Along each axis two points are within half a period of each other. -/
def PointsWithinHalf (torus : Torus (Extended K)) (x y : List (Extended K)) : Prop :=
  ∀ P ∈ torus.axes.zip (x.zip y), P.1.WithinHalf (P.2.1 - P.2.2)

/-- Along each axis the raw separations of two boxes are within half a period. -/
def WithinHalf (torus : Torus (Extended K)) (a b : Box (Extended K)) : Prop :=
  ∀ P ∈ torus.axes.zip (a.axes.zip b.axes),
    P.1.WithinHalf (P.2.1.lo - P.2.2.hi) ∧ P.1.WithinHalf (P.2.1.hi - P.2.2.lo)

instance (torus : Torus (Extended K)) (x y : List (Extended K)) :
    Decidable (torus.PointsWithinHalf x y) :=
  inferInstanceAs (Decidable (∀ P ∈ torus.axes.zip (x.zip y), P.1.WithinHalf (P.2.1 - P.2.2)))

instance (torus : Torus (Extended K)) (a b : Box (Extended K)) : Decidable (torus.WithinHalf a b) :=
  inferInstanceAs (Decidable (∀ P ∈ torus.axes.zip (a.axes.zip b.axes), _ ∧ _))

end Torus

/-- Both intervals have their ends in order, and no difference between their points is more than half
a period. -/
inductive Circle.Unwrapped :
    Circle (Extended K) → Interval (Extended K) → Interval (Extended K) → Prop
  | endless {a b c d : K} (hab : a ≤ b) (hcd : c ≤ d) :
    Unwrapped (.ofPeriod (inf false)) ⟨num a, num b⟩ ⟨num c, num d⟩
  | short {full a b c d : K} (hfull : 0 < full) (hab : a ≤ b) (hcd : c ≤ d)
    (hlo : -(full / 2) ≤ a - d) (hhi : b - c ≤ full / 2) :
    Unwrapped (.ofPeriod (num full)) ⟨num a, num b⟩ ⟨num c, num d⟩

/-! ## Points -/

/-- Differences of the same sizes make the same total, whatever the limit. -/
theorem Norm.sum_eq_of_abs_eq (n : Norm (Extended K)) (limit : Extended K) [IsStrictOrderedRing K]
    {ws vs : List K} (h : List.Forall₂ (fun w v => |w| = |v|) ws vs) :
    n.sum limit (ws.map num) = n.sum limit (vs.map num) := by
  have haccumulate : ∀ {w v : K}, |w| = |v| → ∀ total : Extended K,
      n.accumulate total (num w) = n.accumulate total (num v) := by
    intro w v hwv total
    cases n with
    | euclidean =>
      show total + num w * num w = total + num v * num v
      rw [num_mul, num_mul, ← abs_mul_abs_self, hwv, abs_mul_abs_self]
    | chebyshev => exact congrArg (Scalar.max total) (congrArg num hwv)
    | manhattan => exact congrArg (total + ·) (congrArg num hwv)
    | general p => exact congrArg (fun a => total + Scalar.pow a p) (congrArg num hwv)
  have hfrom : ∀ total : Extended K,
      n.sumFrom limit total (ws.map num) = n.sumFrom limit total (vs.map num) := by
    induction h with
    | nil =>
      intro total
      rfl
    | cons hwv _ ih =>
      intro total
      rw [List.map_cons, List.map_cons, sumFrom, sumFrom, haccumulate hwv, ih]
  exact hfrom 0

variable [IsStrictOrderedRing K]

namespace Circle

omit [IsStrictOrderedRing K] in
theorem withinHalf_num_iff [NeZero (2 : K)] {full δ : K} :
    (ofPeriod (num full)).WithinHalf (num δ) ↔ |δ| ≤ full / 2 := by
  rw [WithinHalf, ofPeriod_num, abs_num, num_le_num]
  exact or_iff_right nofun

theorem exists_wrap_of_withinHalf {full : Extended K} (hfull : 0 < full) {a b : K}
    (h : (ofPeriod full).WithinHalf (num a - num b)) :
    ∃ w, (ofPeriod full).wrap (num a - num b) = num w ∧ |w| = |a - b| := by
  cases full with
  | num full =>
    have hpos : 0 < full := num_lt_num.mp hfull
    rw [num_sub] at h ⊢
    have hhalf : |a - b| ≤ full / 2 := withinHalf_num_iff.mp h
    have habs := abs_wrap_of_abs_le hpos (hhalf.trans (by linarith))
    rwa [ridge_of_le_half hhalf, abs_eq_num] at habs
  | inf negative => cases negative with
    | false =>
      -- all images along an endless axis are the same point
      obtain ⟨w, hw, ⟨k, hk⟩, -⟩ := exists_wrap_eq_sub_image hfull a b
      exact ⟨w, hw, congrArg _ hk.symm⟩
    | true => exact absurd hfull Bool.false_ne_true
  | nan => exact absurd hfull Bool.false_ne_true

theorem exists_wraps_of_withinHalf {periods : List (Extended K)} (hpos : ∀ full ∈ periods, 0 < full)
    {x y : List K} (hx : x.length = periods.length) (hy : y.length = periods.length)
    (h : ∀ P ∈ (periods.map ofPeriod).zip ((x.map num).zip (y.map num)),
      P.1.WithinHalf (P.2.1 - P.2.2)) : ∃ ws : List K,
    List.zipWith (fun δ c => c.wrap δ) (List.zipWith (· - ·) (x.map num) (y.map num))
        (periods.map ofPeriod) = ws.map num ∧
      List.Forall₂ (fun w v => |w| = |v|) ws (List.zipWith (· - ·) x y) := by
  induction periods generalizing x y with
  | nil =>
    obtain rfl := List.length_eq_zero_iff.mp hx
    exact ⟨[], rfl, .nil⟩
  | cons full periods ih =>
    match x, y with
    | a :: x, b :: y =>
      simp only [List.map_cons, List.zip_cons_cons, List.forall_mem_cons] at h
      obtain ⟨w, hw, hab⟩ := exists_wrap_of_withinHalf (hpos full List.mem_cons_self) h.1
      obtain ⟨ws, hws, hxy⟩ := ih (fun f hf => hpos f (List.mem_cons_of_mem full hf))
        (Nat.succ.inj hx) (Nat.succ.inj hy) h.2
      exact ⟨w :: ws, congrArg₂ List.cons hw hws, .cons hab hxy⟩

end Circle

/-- **Points within half a period of each other are as far apart as in unbounded space**, whatever
the limit. -/
theorem Space.distance_periodic_eq_unbounded {periods : List (Extended K)}
    {torus : Torus (Extended K)} (ht : Torus.ofPeriods periods = .ok torus) {x y : List K}
    (hx : x.length = torus.dims) (hy : y.length = torus.dims)
    (h : torus.PointsWithinHalf (x.map num) (y.map num)) (n : Norm (Extended K))
    (limit : Extended K) :
    (Space.periodic torus).distance n limit (x.map num) (y.map num)
      = Space.unbounded.distance n limit (x.map num) (y.map num) := by
  obtain ⟨hpos, rfl⟩ := Torus.ofPeriods_eq_ok_iff.mp ht
  rw [Torus.dims, List.length_map] at hx hy
  obtain ⟨ws, hws, hxy⟩ := Circle.exists_wraps_of_withinHalf hpos hx hy h
  have hline : List.zipWith (· - ·) (x.map num) (y.map num)
      = (List.zipWith (· - ·) x y).map (num : K → Extended K) := by
    rw [List.zipWith_map, List.map_zipWith]
    simp only [num_sub]
  rw [distance, distance, differences, differences, hws, hline]
  exact n.sum_eq_of_abs_eq limit hxy

/-! ## Intervals -/

namespace Circle

/-- With an infinite half period the bounds are those on a line. -/
theorem fold_of_half_eq_inf {c : Circle (Extended K)} (hc : c.half = inf false) {lo hi : K}
    (hle : lo ≤ hi) : c.fold (num lo) (num hi)
      = ⟨num (max 0 (max lo (-hi))), num (max hi (-lo))⟩ := by
  rw [fold, abs_num, abs_num, ← num_zero]
  by_cases hside : hi ≤ 0 ∨ 0 ≤ lo
  · rw [if_pos (hside.imp num_le_num.mpr num_le_num.mpr), sorted_abs_num hle hside, foldApart, hc,
      if_pos (num_lt_inf _)]
  · obtain ⟨hpos, hneg⟩ : 0 < hi ∧ lo < 0 := by simpa using hside
    rw [if_neg (by rw [num_le_num, num_le_num]; exact hside), foldAcross, neg_num, farther_num, hc,
      if_neg (not_inf_lt _), max_eq_left (max_le hneg.le (show -hi ≤ 0 by linarith))]

/-- Bounds of at most half a period are left alone. -/
theorem foldApart_of_le_half {full l g : K} (hle : l ≤ g) (hg : g ≤ full / 2) :
    (ofPeriod (num full)).foldApart ⟨num l, num g⟩ = ⟨num l, num g⟩ := by
  rw [ofPeriod_num, foldApart]
  simp only [num_lt_num, num_sub, min_num]
  rcases hg.lt_or_eq with hlt | rfl
  · rw [if_pos hlt]
  · rw [if_neg (lt_irrefl _), if_neg hle.not_gt, min_eq_left (by linarith)]

variable {c : Circle (Extended K)} {I J : Interval (Extended K)}

/-- **Where nothing wraps the bounds on a circle are those on a line.** -/
theorem Unwrapped.separation_eq (h : c.Unwrapped I J) : c.separation I J = I.separation J := by
  cases h with
  | endless hab hcd =>
    rw [separation, num_sub, num_sub, fold_of_half_eq_inf half_ofPeriod_inf (by linarith),
      Interval.separation_num, neg_sub, neg_sub]
  | short hfull hab hcd hlo hhi =>
    rw [separation_eq_foldApart hfull hab hcd (by linarith) (by linarith), Interval.separation_num]
    exact foldApart_of_le_half (Interval.gap_le_reach hab hcd) (max_le hhi (by linarith))

theorem Unwrapped.symm (h : c.Unwrapped I J) : c.Unwrapped J I := by
  cases h with
  | endless hab hcd => exact .endless hcd hab
  | short hfull hab hcd hlo hhi => exact .short hfull hcd hab (by linarith) (by linarith)

theorem Unwrapped.part_first (h : c.Unwrapped I J) {v : Extended K} (hlo : I.lo ≤ v)
    (hhi : v ≤ I.hi) (half : Half) : c.Unwrapped (I.part v half) J := by
  cases h with
  | endless hab hcd =>
    obtain ⟨u, rfl, hau, hub⟩ := exists_num_of_mem hlo hhi
    cases half with
    | lower => exact .endless hau hcd
    | upper => exact .endless hub hcd
  | short hfull hab hcd hfar hnear =>
    obtain ⟨u, rfl, hau, hub⟩ := exists_num_of_mem hlo hhi
    cases half with
    | lower => exact .short hfull hau hcd hfar (by linarith)
    | upper => exact .short hfull hub hcd (by linarith) hnear

end Circle

/-! ## Boxes -/

/-- Along each axis nothing wraps between two boxes. -/
def Torus.Unwrapped (torus : Torus (Extended K)) (a b : Box (Extended K)) : Prop :=
  ∀ (i : Nat) (I : Interval (Extended K)), a.axes[i]? = some I →
    ∀ (c : Circle (Extended K)) (J : Interval (Extended K)), torus.axes[i]? = some c →
      b.axes[i]? = some J → c.Unwrapped I J

variable {torus : Torus (Extended K)} {a b : Box (Extended K)}

theorem Torus.Unwrapped.symm (h : torus.Unwrapped a b) : torus.Unwrapped b a :=
  fun i J hJ c I hc hI => (h i I hI c J hc hJ).symm

/-- Cuts inside keep boxes between which nothing wraps so. -/
theorem Torus.Unwrapped.narrow_first (h : torus.Unwrapped a b) {cut : Cut (Extended K)}
    (hcut : ∀ I ∈ a.axes[cut.axis]?, I.lo ≤ cut.value ∧ cut.value ≤ I.hi) (half : Half) :
    torus.Unwrapped (a.narrow half cut) b := by
  refine Box.forall_getElem?_narrow h ?_
  intro I hI c J hc hJ
  exact (h _ I hI c J hc hJ).part_first (hcut I hI).1 (hcut I hI).2 half

theorem Torus.Unwrapped.narrow_second (h : torus.Unwrapped a b) {cut : Cut (Extended K)}
    (hcut : ∀ J ∈ b.axes[cut.axis]?, J.lo ≤ cut.value ∧ cut.value ≤ J.hi) (half : Half) :
    torus.Unwrapped a (b.narrow half cut) :=
  (h.symm.narrow_first hcut half).symm

/-- **Boxes between which nothing wraps are separated as in unbounded space.** -/
theorem Space.separations_periodic_eq (hfit : (Space.periodic torus).Fits a b)
    (h : torus.Unwrapped a b) :
    (Space.periodic torus).separations a b = Space.unbounded.separations a b := by
  apply List.ext_getElem?
  intro i
  apply Option.ext
  intro s
  rw [getElem?_separations, getElem?_separations]
  constructor
  · rintro ⟨A, I, J, hA, hI, hJ, rfl⟩
    obtain ⟨c, hc, rfl⟩ : ∃ c, torus.axes[i]? = some c ∧ .circle c = A := by
      rwa [axes, List.getElem?_map, Option.map_eq_some_iff] at hA
    have hi : i < a.dims := (List.getElem?_eq_some_iff.mp hI).1
    exact ⟨.line, I, J, List.getElem?_replicate_of_lt hi, hI, hJ,
      (h i I hI c J hc hJ).separation_eq.symm⟩
  · rintro ⟨A, I, J, hA, hI, hJ, rfl⟩
    obtain rfl : A = .line := List.eq_of_mem_replicate (List.mem_of_getElem? hA)
    have hi : i < torus.axes.length := by
      have hdims : torus.dims = a.dims := checkDims_eq_ok_iff.mp hfit.checked torus rfl
      rw [Torus.dims] at hdims
      rw [hdims]
      exact (List.getElem?_eq_some_iff.mp hI).1
    have hc := List.getElem?_eq_getElem hi
    refine ⟨.circle torus.axes[i], I, J, ?_, hI, hJ, (h i I hI _ J hc hJ).separation_eq⟩
    rw [axes, List.getElem?_map, hc]
    rfl

end MinkowskiBounds
