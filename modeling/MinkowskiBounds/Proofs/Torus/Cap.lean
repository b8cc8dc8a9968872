import Mathlib.Tactic.TFAE
import MinkowskiBounds.Proofs.Box.Distances

/-!
# Half a period as a cap

No two points of a torus are further apart along an axis than half its period, and so the half period
caps the bounds between boxes and the differences of points. It does so on a torus that was made from
its periods. One that was made from all of its sizes holds the half periods that it was given, and such
a half period is a cap exactly if it is not less than half of the period (`Torus.capped_tfae`).

One that is too small is exceeded by two points half a period apart, which nothing folds or wraps any
closer. One that is too large does no harm to the cap: whatever is above it is folded to below half of
the period, and rounding to the nearest multiple of the period leaves at most half of it.

* `Torus.BoundsCapped`, `Torus.DifferencesCapped` — the caps along an axis
* `Torus.capped_tfae` — where they hold
-/

namespace MinkowskiBounds

open Extended

variable {K : Type} [Field K] [LinearOrder K] [FloorRing K] [Powers K]

/-! ## Caps along an axis -/

namespace Torus

/-- The bounds between boxes in order are in order themselves, and at most `half`. -/
def BoundsCapped (torus : Torus (Extended K)) (axis : Nat) (half : K) : Prop :=
  ∀ a b : Box (Extended K), a.Proper → b.Proper → axis < a.dims → axis < b.dims →
    ∃ least greatest : K, (Space.periodic torus).axisBounds (.ofExponent 1) a b axis
        = .ok ⟨num least, num greatest⟩ ∧
      least ≤ greatest ∧ greatest ≤ half

/-- The differences that distances between points are made of are in `(-half, half]`. -/
def DifferencesCapped (torus : Torus (Extended K)) (axis : Nat) (half : K) : Prop :=
  ∀ (x y : List (Extended K)) (u v : K), x[axis]? = some (num u) → y[axis]? = some (num v) →
    ∃ w : K, ((Space.periodic torus).differences x y)[axis]? = some (num w) ∧ -half < w ∧ w ≤ half

end Torus

variable [IsStrictOrderedRing K] {full half : K}

/-! ## Circles -/

namespace Circle

/-- Sizes of raw separations are folded to at most the half period. -/
theorem foldApart_capped (hcap : full ≤ 2 * half) {l g : K} (hle : l ≤ g) :
    ∃ least greatest : K, (⟨num full, num half⟩ : Circle (Extended K)).foldApart ⟨num l, num g⟩
        = ⟨num least, num greatest⟩ ∧
      least ≤ greatest ∧ greatest ≤ half := by
  rw [foldApart]
  simp only [num_lt_num, num_sub, min_num]
  split
  · next hbelow => exact ⟨l, g, rfl, hle, hbelow.le⟩
  · split
    · -- what is above the half period has at most that much left to the whole period
      next habove => exact ⟨full - g, full - l, rfl, by linarith, by linarith⟩
    · next hl => exact ⟨min l (full - g), half, rfl, (min_le_left _ _).trans (not_lt.mp hl), le_rfl⟩

/-- **Raw separations are folded to at most the half period**, if it is at least half of the period. -/
theorem fold_capped (hfull : 0 < full) (hcap : full ≤ 2 * half) (lo hi : K) :
    ∃ least greatest : K, (⟨num full, num half⟩ : Circle (Extended K)).fold (num lo) (num hi)
        = ⟨num least, num greatest⟩ ∧
      least ≤ greatest ∧ greatest ≤ half := by
  rw [fold, abs_num, abs_num, Bounds.sorted_num, ← num_zero]
  split
  · exact foldApart_capped hcap min_le_max
  · next hside =>
    obtain ⟨hpos, -⟩ : 0 < hi ∧ lo < 0 := by simpa using hside
    rw [foldAcross, neg_num, farther_num]
    split
    · exact ⟨0, half, rfl, by linarith, le_rfl⟩
    · next hle =>
      exact ⟨0, max hi (-lo), rfl, hpos.le.trans (le_max_left _ _), not_lt.mp (mt num_lt_num.mpr hle)⟩

/-- **Differences wrap to at most the half period**, if it is at least half of the period. -/
theorem wrap_capped (hfull : 0 < full) (hcap : full ≤ 2 * half) (δ : K) :
    ∃ w : K, (⟨num full, num half⟩ : Circle (Extended K)).wrap (num δ) = num w ∧
      -half < w ∧ w ≤ half := by
  rw [wrap, correct]
  simp only [neg_num, num_lt_num, num_le_num, num_div δ hfull.ne', round_num, num_mul, num_sub,
    num_add]
  split
  · next hin => exact ⟨δ, rfl, hin⟩
  · obtain ⟨hlo, hhi⟩ := abs_le.mp (abs_sub_mul_roundAway_le hfull δ)
    generalize δ - full * (roundAway (δ / full) : K) = w at hlo hhi ⊢
    split
    · -- only a half period of exactly half of the period leaves anything to correct
      exact ⟨w + full, rfl, by linarith, by linarith⟩
    · next hbelow =>
      rw [if_neg (by linarith)]
      exact ⟨w, rfl, not_le.mp hbelow, by linarith⟩

/-- Half of the period stays as it is if the half period is less. -/
theorem fold_of_uncapped (hfull : 0 < full) (hover : 2 * half < full) :
    (⟨num full, num half⟩ : Circle (Extended K)).fold (num (full / 2)) (num (full / 2))
      = ⟨num (full / 2), num (full / 2)⟩ := by
  have hpos : 0 < full / 2 := half_pos hfull
  rw [fold, abs_num, Bounds.sorted_num, abs_of_pos hpos, min_self, max_self, ← num_zero,
    if_pos (.inr (num_le_num.mpr hpos.le)), foldApart]
  simp only [num_lt_num, num_sub]
  rw [if_neg (by linarith), if_pos (by linarith), sub_half]

theorem wrap_of_uncapped (hfull : 0 < full) (hover : 2 * half < full) :
    (⟨num full, num half⟩ : Circle (Extended K)).wrap (num (full / 2)) = num (full / 2) := by
  have hratio : full / 2 / full = 1 / 2 := by
    rw [div_right_comm, div_self hfull.ne']
  have hround : roundAway (1 / 2 : K) = 1 := by
    rw [roundAway, if_pos (by norm_num), add_halves, Int.floor_one]
  have hleft : full / 2 - full * ((1 : ℤ) : K) = -(full / 2) := by
    rw [Int.cast_one]
    ring
  rw [wrap, correct]
  simp only [neg_num, num_lt_num, num_le_num, num_div _ hfull.ne', round_num, num_mul, num_sub,
    num_add]
  rw [hratio, hround, hleft, if_neg fun hin => by linarith, if_pos (by linarith), neg_add_eq_sub,
    sub_half]

end Circle

/-! ## Tori -/

namespace Torus

variable {torus : Torus (Extended K)} {axis : Nat}

omit [IsStrictOrderedRing K] in
theorem axisBounds_of_circle {n : Norm (Extended K)} {a b : Box (Extended K)}
    {c : Circle (Extended K)} {I J : Interval (Extended K)} (hc : torus.axes[axis]? = some c)
    (hI : a.axes[axis]? = some I) (hJ : b.axes[axis]? = some J) :
    (Space.periodic torus).axisBounds n a b axis = .ok ((c.separation I J).map n.term) := by
  refine Space.axisBounds_of_getElem? (Space.getElem?_separations.mpr ?_)
  refine ⟨.circle c, I, J, ?_, hI, hJ, rfl⟩
  rw [Space.axes, List.getElem?_map, hc]
  rfl

omit [IsStrictOrderedRing K] in
theorem getElem?_differences {x y : List (Extended K)} {c : Circle (Extended K)} {u v : K}
    (hc : torus.axes[axis]? = some c) (hx : x[axis]? = some (num u)) (hy : y[axis]? = some (num v)) :
    ((Space.periodic torus).differences x y)[axis]? = some (c.wrap (num (u - v))) := by
  rw [Space.differences, List.getElem?_zipWith, List.getElem?_zipWith, hx, hy, hc, ← num_sub]

omit [IsStrictOrderedRing K] in
/-- Made from periods, an axis has half of its period for a half period. -/
theorem exists_circle_of_ofPeriods {ns : List K} (h : ofPeriods (ns.map num) = .ok torus)
    (haxis : axis < torus.dims) :
    ∃ full : K, 0 < full ∧ torus.axes[axis]? = some ⟨num full, num (full / 2)⟩ := by
  obtain ⟨hpos, rfl⟩ := ofPeriods_eq_ok_iff.mp h
  have hlt : axis < ns.length := by simpa [dims] using haxis
  refine ⟨ns[axis], ?_, ?_⟩
  · exact num_lt_num.mp (hpos _ (List.mem_map_of_mem (List.getElem_mem hlt)))
  · rw [List.map_map, List.getElem?_map, List.getElem?_eq_getElem hlt, ← Circle.ofPeriod_num]
    rfl

omit [IsStrictOrderedRing K] in
/-- Made from all sizes, an axis has some number for a half period. -/
theorem exists_circle_of_ofSizes {ns : List K} (h : ofSizes (ns.map num) = .ok torus)
    (haxis : axis < torus.dims) :
    ∃ full half : K, 0 < full ∧ torus.axes[axis]? = some ⟨num full, num half⟩ := by
  obtain ⟨-, hpos, rfl⟩ := ofSizes_eq_ok_iff.mp h
  have hc := List.getElem?_eq_getElem haxis
  obtain ⟨x, y, hx, hy, hxy⟩ := List.getElem?_zipWith_eq_some.mp hc
  obtain ⟨full, -, rfl⟩ := List.mem_map.mp (List.mem_of_mem_take (List.mem_of_getElem? hx))
  obtain ⟨half, -, rfl⟩ := List.mem_map.mp (List.mem_of_mem_drop (List.mem_of_getElem? hy))
  have hfull := hpos _ (List.mem_of_getElem? hx)
  exact ⟨full, half, num_lt_num.mp hfull, hc.trans (congrArg some hxy.symm)⟩

/-! ## Where the caps hold -/

omit [Field K] [LinearOrder K] [FloorRing K] [Powers K] [IsStrictOrderedRing K] in
/-- A point with the coordinate `u` along an axis, as along those before it. -/
theorem getElem?_replicate_num (axis : Nat) (u : K) :
    ((List.replicate (axis + 1) u).map num)[axis]? = some (num u) := by
  rw [List.map_replicate]
  exact List.getElem?_replicate_of_lt (Nat.lt_succ_self axis)

theorem boundsCapped_iff (hfull : 0 < full) (hc : torus.axes[axis]? = some ⟨num full, num half⟩) :
    torus.BoundsCapped axis half ↔ full ≤ 2 * half := by
  constructor
  · intro hbounds
    by_contra hover
    have hbox : ∀ u : K, (Box.ofPoint ((List.replicate (axis + 1) u).map num)).axes[axis]?
        = some ⟨num u, num u⟩ := by
      intro u
      rw [Box.ofPoint, List.getElem?_map, getElem?_replicate_num]
      rfl
    have hlt : ∀ u : K, axis < (Box.ofPoint ((List.replicate (axis + 1) u).map num)).dims :=
      fun u => (List.getElem?_eq_some_iff.mp (hbox u)).1
    obtain ⟨least, greatest, hb, -, hle⟩ := hbounds _ _ (Box.proper_ofPoint _)
      (Box.proper_ofPoint _) (hlt (full / 2)) (hlt 0)
    rw [axisBounds_of_circle hc (hbox _) (hbox _), Circle.separation, num_sub, sub_zero,
      Circle.fold_of_uncapped hfull (not_le.mp hover), Norm.ofExponent_one] at hb
    cases hb
    linarith
  · intro hcap a b ha hb hlt hlt'
    obtain ⟨lo, hi, -, hI⟩ := ha.exists_ends hlt
    obtain ⟨lo', hi', -, hJ⟩ := hb.exists_ends hlt'
    obtain ⟨least, greatest, hfold, hcapped⟩ := Circle.fold_capped hfull hcap (lo - hi') (hi - lo')
    refine ⟨least, greatest, ?_, hcapped⟩
    rw [axisBounds_of_circle hc hI hJ, Circle.separation, num_sub, num_sub, hfold,
      Norm.ofExponent_one]
    rfl

theorem differencesCapped_iff (hfull : 0 < full)
    (hc : torus.axes[axis]? = some ⟨num full, num half⟩) :
    torus.DifferencesCapped axis half ↔ full ≤ 2 * half := by
  constructor
  · intro hdiffs
    by_contra hover
    have hx := getElem?_replicate_num axis (full / 2)
    have hy := getElem?_replicate_num axis (0 : K)
    obtain ⟨w, hw, -, hle⟩ := hdiffs _ _ _ _ hx hy
    rw [getElem?_differences hc hx hy, sub_zero,
      Circle.wrap_of_uncapped hfull (not_le.mp hover)] at hw
    cases hw
    linarith
  · intro hcap x y u v hx hy
    obtain ⟨w, hw, hmem⟩ := Circle.wrap_capped hfull hcap (u - v)
    exact ⟨w, (getElem?_differences hc hx hy).trans (congrArg some hw), hmem⟩

/--
**Half a period is a cap exactly where it is at least half of the period.**

A torus is made from numbers, its periods or all of its sizes. Along each axis the bounds between boxes
in order and the differences between points are capped by the half period, both of them, if the period
is at most twice the half period, and neither is if not. On a torus made from its periods it always is.
-/
theorem capped_tfae {ns : List K}
    (h : ofPeriods (ns.map num) = .ok torus ∨ ofSizes (ns.map num) = .ok torus)
    (haxis : axis < torus.dims) :
    ∃ full half : K, torus.full axis = .ok (num full) ∧ torus.half axis = .ok (num half) ∧
      (ofPeriods (ns.map num) = .ok torus → full = 2 * half) ∧
      [full ≤ 2 * half, torus.BoundsCapped axis half, torus.DifferencesCapped axis half].TFAE := by
  obtain ⟨full, half, hfull, hc, hexact⟩ : ∃ full half : K, 0 < full ∧
      torus.axes[axis]? = some ⟨num full, num half⟩ ∧
      (ofPeriods (ns.map num) = .ok torus → full = 2 * half) := by
    by_cases hperiods : ofPeriods (ns.map num) = .ok torus
    · obtain ⟨full, hfull, hc⟩ := exists_circle_of_ofPeriods hperiods haxis
      exact ⟨full, full / 2, hfull, hc, fun _ => by ring⟩
    · obtain ⟨full, half, hfull, hc⟩ := exists_circle_of_ofSizes (h.resolve_left hperiods) haxis
      exact ⟨full, half, hfull, hc, fun h => absurd h hperiods⟩
  obtain ⟨hreadFull, hreadHalf⟩ := sizes_of_getElem? hc
  refine ⟨full, half, hreadFull, hreadHalf, hexact, ?_⟩
  tfae_have 2 ↔ 1 := boundsCapped_iff hfull hc
  tfae_have 3 ↔ 1 := differencesCapped_iff hfull hc
  tfae_finish

/-- One half period too small and one too large beside the same periods, and one that was computed. -/
theorem capped_tfae_sizes :
    let given : Torus (Extended ℚ) := ⟨[⟨num 10, num 3⟩, ⟨num 10, num 6⟩]⟩
    let halved : Torus (Extended ℚ) := ⟨[.ofPeriod (num 10)]⟩
    ofSizes ([(10 : ℚ), 10, 3, 6].map num) = .ok given ∧
    ofPeriods ([(10 : ℚ)].map num) = .ok halved ∧
    0 < given.dims ∧ 1 < given.dims ∧ 0 < halved.dims ∧
    (¬ given.BoundsCapped 0 (3 : ℚ) ∧ ¬ given.DifferencesCapped 0 (3 : ℚ)) ∧
    (given.BoundsCapped 1 (6 : ℚ) ∧ given.DifferencesCapped 1 (6 : ℚ)) ∧
    halved.BoundsCapped 0 (5 : ℚ) ∧ halved.DifferencesCapped 0 (5 : ℚ) := by
  intro given halved
  have hsizes : ofSizes ([(10 : ℚ), 10, 3, 6].map num) = .ok given :=
    ofSizes_eq_ok_iff.mpr ⟨rfl, by decide +kernel, rfl⟩
  have hperiods : ofPeriods ([(10 : ℚ)].map num) = .ok halved :=
    ofPeriods_eq_ok_iff.mpr ⟨by decide +kernel, rfl⟩
  refine ⟨hsizes, hperiods, Nat.two_pos, Nat.one_lt_two, Nat.one_pos, ?_, ?_, ?_⟩
  · obtain ⟨full, half, hfull, hhalf, -, htfae⟩ := capped_tfae (.inr hsizes) Nat.two_pos
    cases hfull
    cases hhalf
    have hover : ¬ (10 : ℚ) ≤ 2 * 3 := by norm_num
    exact ⟨mt (htfae.out 1 0).mp hover, mt (htfae.out 2 0).mp hover⟩
  · obtain ⟨full, half, hfull, hhalf, -, htfae⟩ := capped_tfae (.inr hsizes) Nat.one_lt_two
    cases hfull
    cases hhalf
    have hcap : (10 : ℚ) ≤ 2 * 6 := by norm_num
    exact ⟨(htfae.out 0 1).mp hcap, (htfae.out 0 2).mp hcap⟩
  · obtain ⟨full, half, hfull, -, hexact, htfae⟩ := capped_tfae (.inl hperiods) Nat.one_pos
    cases hfull
    obtain rfl : 5 = half := by linarith [hexact hperiods]
    have hcap : (10 : ℚ) ≤ 2 * 5 := by norm_num
    exact ⟨(htfae.out 0 1).mp hcap, (htfae.out 0 2).mp hcap⟩

/-- **A half period that is too small caps nothing**: a period of ten with three for its half. -/
theorem not_capped_short_half :
    let torus : Torus (Extended ℚ) := ⟨[⟨num 10, num 3⟩]⟩
    ofSizes [num 10, num 3] = .ok torus ∧ torus.half 0 = .ok (num 3) ∧
    (Space.periodic torus).axisBounds (.ofExponent 1) ⟨[⟨num 4, num 6⟩]⟩ ⟨[⟨num 0, num 0⟩]⟩ 0
      = .ok ⟨num 4, num 6⟩ ∧
    (Space.periodic torus).differences [num 5] [num 0] = [num 5] ∧
    ¬ torus.BoundsCapped 0 (3 : ℚ) ∧ ¬ torus.DifferencesCapped 0 (3 : ℚ) := by
  intro torus
  have hsizes : ofSizes [num 10, num 3] = .ok torus :=
    ofSizes_eq_ok_iff.mpr ⟨rfl, by decide +kernel, rfl⟩
  have hbounds : (Space.periodic torus).axisBounds (.ofExponent 1) ⟨[⟨num 4, num 6⟩]⟩
      ⟨[⟨num 0, num 0⟩]⟩ 0 = .ok ⟨num 4, num 6⟩ := by
    rw [axisBounds_of_circle (c := ⟨num 10, num 3⟩) rfl rfl rfl]
    exact congrArg Except.ok (congrArg₂ Bounds.mk (by decide +kernel) (by decide +kernel))
  have hdiffs : (Space.periodic torus).differences [num 5] [num 0] = [num 5] := by
    decide +kernel
  refine ⟨hsizes, rfl, hbounds, hdiffs, ?_, ?_⟩
  · intro hcapped
    obtain ⟨least, greatest, hb, -, hle⟩ := hcapped ⟨[⟨num 4, num 6⟩]⟩ ⟨[⟨num 0, num 0⟩]⟩
      (Box.proper_map [(4, 6)] (by decide +kernel)) (Box.proper_map [(0, 0)] (by decide +kernel))
      Nat.one_pos Nat.one_pos
    cases hbounds.symm.trans hb
    exact absurd hle (by decide +kernel)
  · intro hcapped
    obtain ⟨w, hw, -, hle⟩ := hcapped [num 5] [num 0] 5 0 rfl rfl
    rw [hdiffs] at hw
    cases hw
    exact absurd hle (by decide +kernel)

end Torus

end MinkowskiBounds
