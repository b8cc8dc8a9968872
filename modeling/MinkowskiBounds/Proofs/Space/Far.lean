import MinkowskiBounds.Proofs.Space.Extremes

/-!
# Intervals further apart than a period

Wherever two intervals lie on a circle, the greatest bound is the height of the ridge above the size of
one of their differences. Within one period that is a distance. Beyond a period the ridge falls below
zero, while no distance does: there the greatest bound can be too small, and is never too large
(`Axis.exists_reached`). The least bound is below zero as well wherever the intervals lie apart
(`Axis.exists_separation_least_neg`).
-/

namespace MinkowskiBounds

open Extended

variable {K : Type} [Field K] [LinearOrder K] [FloorRing K] [Powers K] {A : Axis (Extended K)}
  {I J : Interval (Extended K)} {a b c d full : K}

/-! ## Along one axis -/

/-- The bounds are the numbers `s`, and `e` is a distance that is not below the greatest. -/
structure Axis.Reached (A : Axis (Extended K)) (I J : Interval (Extended K)) (s : K × K) (e : K) :
    Prop where
  separation : A.separation I J = ⟨num s.1, num s.2⟩
  mem : num e ∈ A.distances I J
  le : s.2 ≤ e

variable [IsStrictOrderedRing K]

theorem Axis.Reached.nonneg {s : K × K} {e : K} (h : A.Reached I J s e) : 0 ≤ e := by
  obtain ⟨x, y, -, -, he⟩ := h.mem
  obtain ⟨w, -, hw⟩ := abs_eq_num.mp he
  exact hw ▸ abs_nonneg w

namespace Circle

/-- Across zero the greatest bound is the size of a difference, cut off at the top of the ridge. -/
theorem exists_foldAcross_eq (hfull : 0 < full) (ha : a < 0) (hb : 0 < b) : ∃ δ ∈ Set.Icc a b,
    (ofPeriod (num full)).foldAcross (num a) (num b) = num (ridge full |δ|) := by
  rw [foldAcross_num]
  generalize hr : min (full / 2) (max b (-a)) = r
  have h0 : 0 ≤ r := hr ▸ le_min (by linarith) (hb.le.trans (le_max_left b _))
  have hhalf : r ≤ full / 2 := hr ▸ min_le_left _ _
  rcases le_max_iff.mp (hr ▸ min_le_right _ _ : r ≤ max b (-a)) with h | h
  · refine ⟨r, ⟨by linarith, h⟩, ?_⟩
    rw [abs_of_nonneg h0, ridge_of_le_half hhalf]
  · refine ⟨-r, ⟨by linarith, by linarith⟩, ?_⟩
    rw [abs_neg, abs_of_nonneg h0, ridge_of_le_half hhalf]

/-- The greatest bound is the height of the ridge above some difference, wherever the raw separations
are. -/
theorem exists_fold_eq (hfull : 0 < full) (hle : a ≤ b) : ∃ l, ∃ δ ∈ Set.Icc a b,
    (ofPeriod (num full)).fold (num a) (num b) = ⟨num l, num (ridge full |δ|)⟩ := by
  -- on one side of zero the greatest bound is the height above some size `r`, and the difference of
  -- that size has the sign of that side
  obtain ⟨l, g, hfold, -, ⟨r, ⟨hmin, hmax⟩, rfl⟩, -⟩ :=
    exists_foldApart_eq full (min_le_max (a := |a|) (b := |b|))
  rw [fold, abs_num, abs_num, Bounds.sorted_num, ← num_zero]
  rcases le_or_gt b 0 with hneg | hpos
  · rw [if_pos (.inl (num_le_num.mpr hneg)), hfold]
    rw [abs_of_nonpos hneg, abs_of_nonpos (hle.trans hneg)] at hmin hmax
    rw [min_eq_right (by linarith)] at hmin
    rw [max_eq_left (by linarith)] at hmax
    refine ⟨l, -r, ⟨by linarith, by linarith⟩, ?_⟩
    rw [abs_neg, abs_of_nonneg (by linarith)]
  · rcases le_or_gt 0 a with hpos' | hneg
    · rw [if_pos (.inr (num_le_num.mpr hpos')), hfold]
      rw [abs_of_nonneg hpos', abs_of_nonneg (hpos'.trans hle)] at hmin hmax
      rw [min_eq_left hle] at hmin
      rw [max_eq_right hle] at hmax
      exact ⟨l, r, ⟨hmin, hmax⟩, by rw [abs_of_nonneg (hpos'.trans hmin)]⟩
    · obtain ⟨δ, hδ, hacross⟩ := exists_foldAcross_eq hfull hneg hpos
      rw [if_neg (by rw [num_le_num, num_le_num]; exact not_or.mpr ⟨hpos.not_ge, hneg.not_ge⟩)]
      exact ⟨0, δ, hδ, by rw [hacross]⟩

end Circle

/-- **On a circle some distance reaches the greatest bound**, wherever the intervals lie. -/
theorem Axis.exists_reached (hfull : 0 < full) (hab : a ≤ b) (hcd : c ≤ d) :
    ∃ s e, Axis.Reached (.circle (.ofPeriod (num full))) ⟨num a, num b⟩ ⟨num c, num d⟩ s e := by
  obtain ⟨l, δ, hδ, hfold⟩ :=
    Circle.exists_fold_eq hfull (show a - d ≤ b - c by linarith)
  obtain ⟨w, -, hw, -, -⟩ := Circle.exists_wrap_eq hfull δ
  refine ⟨(l, ridge full |δ|), |w|, ?_, ?_, Circle.ridge_le_abs_wrap hfull hw⟩
  · rw [separation, Circle.separation, num_sub, num_sub, hfold]
  · rw [distances_num hab hcd]
    refine ⟨δ, hδ, ?_⟩
    show Scalar.abs ((Circle.ofPeriod (num full)).wrap (num δ)) = num |w|
    rw [hw, abs_num]

/-- **Points more than a period apart have a greatest bound below zero.** -/
theorem Axis.exists_separation_neg (hfull : 0 < full) {u v : K} (h : full < |u - v|) :
    ∃ l g : K, g < 0 ∧ Axis.separation (.circle (.ofPeriod (num full))) ⟨num u, num u⟩
      ⟨num v, num v⟩ = ⟨num l, num g⟩ := by
  obtain ⟨l, δ, ⟨hlo, hhi⟩, hfold⟩ := Circle.exists_fold_eq hfull (le_refl (u - v))
  obtain rfl : δ = u - v := le_antisymm hhi hlo
  refine ⟨l, ridge full |u - v|, ?_, ?_⟩
  · calc ridge full |u - v| ≤ full - |u - v| := min_le_right _ _
      _ < 0 := by linarith
  · rw [separation, Circle.separation, num_sub, hfold]

/-- **Intervals that lie apart and reach beyond a period have a least bound below zero.** -/
theorem Axis.exists_separation_least_neg (hside : b ≤ c ∨ d ≤ a)
    (hfar : full < |a - d| ∨ full < |b - c|) :
    ∃ l g : K, l < 0 ∧ Axis.separation (.circle (.ofPeriod (num full))) ⟨num a, num b⟩
      ⟨num c, num d⟩ = ⟨num l, num g⟩ := by
  obtain ⟨l, g, hfold, hleast, -⟩ :=
    Circle.exists_foldApart_eq full (min_le_max (a := |a - d|) (b := |b - c|))
  refine ⟨l, g, ?_, ?_⟩
  · calc l ≤ ridge full (max |a - d| |b - c|) := hleast.2 ⟨_, ⟨min_le_max, le_rfl⟩, rfl⟩
      _ ≤ full - max |a - d| |b - c| := min_le_right _ _
      _ < 0 := sub_neg.mpr (lt_max_iff.mpr hfar)
  · have hzero : num (b - c) ≤ (0 : Extended K) ∨ 0 ≤ (num (a - d) : Extended K) :=
      hside.imp (fun h => num_le_num.mpr (sub_nonpos.mpr h)) fun h =>
        num_le_num.mpr (sub_nonneg.mpr h)
    rw [separation, Circle.separation, num_sub, num_sub, Circle.fold, if_pos hzero, abs_num, abs_num,
      Bounds.sorted_num, hfold]

omit [FloorRing K] [Powers K] in
/-- Intervals that are not within a period can be cut to two points more than a period apart. -/
theorem Interval.exists_parts_far (hab : a ≤ b) (hcd : c ≤ d)
    (h : ¬ (-full ≤ a - d ∧ b - c ≤ full)) : ∃ (half half' : Half) (u v : K),
    (a ≤ u ∧ u ≤ b) ∧ (c ≤ v ∧ v ≤ d) ∧ full < |u - v| ∧
      (⟨num a, num b⟩ : Interval (Extended K)).part (num u) half = ⟨num u, num u⟩ ∧
      (⟨num c, num d⟩ : Interval (Extended K)).part (num v) half' = ⟨num v, num v⟩ := by
  rcases not_and_or.mp h with hbelow | habove
  · refine ⟨.lower, .upper, a, d, ⟨le_rfl, hab⟩, ⟨hcd, le_rfl⟩, ?_, rfl, rfl⟩
    exact (lt_neg_of_lt_neg (not_le.mp hbelow)).trans_le (neg_le_abs _)
  · refine ⟨.upper, .lower, b, c, ⟨hab, le_rfl⟩, ⟨le_rfl, hcd⟩, ?_, rfl, rfl⟩
    exact (not_le.mp habove).trans_le (le_abs_self _)

/-! ## Over all axes -/

/-- What is reached along each axis by itself is reached along all of them by two points. -/
theorem exists_points_reached : ∀ {As : List (Axis (Extended K))}
    {Is Js : List (Interval (Extended K))}, As.length = Is.length → Js.length = Is.length →
    (∀ (i : Nat) (A : Axis (Extended K)) I J, As[i]? = some A → Is[i]? = some I → Js[i]? = some J →
      ∃ s e, A.Reached I J s e) →
    ∃ (rs : List ((K × K) × K)) (x y : List (Extended K)),
      List.zipWith (fun A P => A.separation P.1 P.2) As (Is.zip Js)
        = rs.map (fun r => ⟨num r.1.1, num r.1.2⟩) ∧
      List.Forall₂ Interval.Holds Is x ∧ List.Forall₂ Interval.Holds Js y ∧
      List.Forall₂ (fun δ e => Scalar.abs δ = num e)
        (List.zipWith Axis.wrap As (List.zipWith (· - ·) x y)) (rs.map Prod.snd) ∧
      ∀ r ∈ rs, r.1.2 ≤ r.2 ∧ 0 ≤ r.2
  | [], [], [], _, _, _ => ⟨[], [], [], rfl, .nil, .nil, .nil, fun _ h => nomatch h⟩
  | A :: As, I :: Is, J :: Js, hA, hJ, h => by
    obtain ⟨s, e, hr⟩ := h 0 A I J rfl rfl rfl
    obtain ⟨u, v, hu, hv, he⟩ := hr.mem
    obtain ⟨rs, x, y, hs, hx, hy, hes, hrs⟩ := exists_points_reached (Nat.succ.inj hA)
      (Nat.succ.inj hJ) fun i B I' J' => h (i + 1) B I' J'
    refine ⟨(s, e) :: rs, u :: x, v :: y, ?_, .cons hu hx, .cons hv hy, .cons he hes, ?_⟩
    · rw [List.zip_cons_cons, List.zipWith_cons_cons, hs, hr.separation, List.map_cons]
    · intro r hmem
      rcases List.mem_cons.mp hmem with rfl | hmem
      · exact ⟨hr.le, hr.nonneg⟩
      · exact hrs r hmem

end MinkowskiBounds
