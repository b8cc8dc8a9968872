import Mathlib.Algebra.Order.BigOperators.Group.List
import Mathlib.Data.List.TFAE
import Mathlib.Tactic.TFAE
import MinkowskiBounds.Proofs.Space.Far
import MinkowskiBounds.Proofs.Tracker.Halves

/-!
# Where bounds are sound

Bounds are sound if no distance is outside them, and none of them is below zero. On a torus they are
sound at every state, whatever the exponent, exactly if the boxes are within one period of each other
to begin with (`Tracker.sound_tfae`).

Within one period bounds are even exact. Beyond it two cuts leave points more than a period apart
along one axis, between which the bounds are below zero; with exponent one nothing that the other axes
contribute makes up for that.
-/

namespace MinkowskiBounds

open Extended

variable {K : Type} [Field K] [LinearOrder K] [FloorRing K] [Powers K]

/-! ## Boxes on a torus -/

variable [IsStrictOrderedRing K] {periods : List K} {torus : Torus (Extended K)}
  {first second : Box (Extended K)}

theorem Space.exists_reached (ht : Torus.ofPeriods (periods.map num) = .ok torus)
    (hfirst : first.Proper) (hsecond : second.Proper) (i : Nat) (A : Axis (Extended K))
    (I J : Interval (Extended K)) (hA : ((Space.periodic torus).axes first.dims)[i]? = some A)
    (hI : first.axes[i]? = some I) (hJ : second.axes[i]? = some J) : ∃ s e, A.Reached I J s e := by
  obtain ⟨full, hfull, -, rfl⟩ := exists_period ht hA
  obtain ⟨a, b, rfl, hab⟩ := hfirst I (List.mem_of_getElem? hI)
  obtain ⟨c, d, rfl, hcd⟩ := hsecond J (List.mem_of_getElem? hJ)
  exact Axis.exists_reached hfull hab hcd

omit [IsStrictOrderedRing K] in
/-- Boxes that are not within a period are not so along some axis. -/
theorem Torus.exists_far (ht : Torus.ofPeriods (periods.map num) = .ok torus)
    (hfirst : first.Proper) (hsecond : second.Proper) (h : ¬ torus.WithinPeriod first second) :
    ∃ (i : Nat) (full a b c d : K), (0 < full ∧ a ≤ b ∧ c ≤ d) ∧
      torus.axes[i]? = some (.ofPeriod (num full)) ∧ first.axes[i]? = some ⟨num a, num b⟩ ∧
      second.axes[i]? = some ⟨num c, num d⟩ ∧ ¬ (-full ≤ a - d ∧ b - c ≤ full) := by
  simp only [WithinPeriod, not_forall] at h
  obtain ⟨⟨C, I, J⟩, hmem, hfar⟩ := h
  obtain ⟨i, hi⟩ := List.mem_iff_getElem?.mp hmem
  obtain ⟨hC, hIJ⟩ := List.getElem?_zip_eq_some.mp hi
  obtain ⟨hI, hJ⟩ := List.getElem?_zip_eq_some.mp hIJ
  obtain ⟨full, hfull, -, hA⟩ := Space.exists_period ht
    (show ((Space.periodic torus).axes first.dims)[i]? = some (.circle C) by
      rw [Space.axes, List.getElem?_map, hC]
      rfl)
  cases hA
  obtain ⟨a, b, rfl, hab⟩ := hfirst I (List.mem_of_getElem? hI)
  obtain ⟨c, d, rfl, hcd⟩ := hsecond J (List.mem_of_getElem? hJ)
  simp only [Circle.ofPeriod, neg_num, num_sub, num_le_num] at hfar
  exact ⟨i, full, a, b, c, d, ⟨hfull, hab, hcd⟩, hC, hI, hJ, hfar⟩

namespace Tracker

/-- No distance between points of the boxes is outside the bounds, and neither is below zero. -/
structure Sound (t : Tracker (Extended K)) : Prop where
  nonneg : 0 ≤ t.bounds.least
  least_le : ∀ d ∈ t.distances, t.bounds.least ≤ d
  le_greatest : ∀ d ∈ t.distances, d ≤ t.bounds.greatest

/-- A tracker is built, and its bounds are sound after every run whose pushes cut inside. -/
def SoundThroughout (space : Space (Extended K)) (first second : Box (Extended K))
    (p : Extended K) : Prop :=
  ∀ ε limit, ∃ t, (build space first second (.ofExponent p) ε limit).result = .ok t ∧
    ∀ as, t.CutsInside as → (t.run as).Sound

variable {t : Tracker (Extended K)} {dims : Nat}

/-! ## Within one period -/

/-- Bounds up to date are sound where the boxes are in order. -/
theorem sound_of_measured (hs : t.Shaped dims) (hb : t.bounds = t.measured)
    (hn : t.norm.IsMonotone) (hzero : 0 ≤ t.norm.accumulate (num 0) (num 0))
    (h : t.space.Orderly t.first t.second) : t.Sound := by
  obtain ⟨hleast, hgreatest⟩ := extremes_of_measured hs hb hn h
  refine ⟨?_, fun d hd => hleast.2 hd, fun d hd => hgreatest.2 hd⟩
  rw [hb]
  exact Space.least_bounds_nonneg hn hzero hs.fits h

/-! ## Beyond a period -/

/-- **In a sum no axis makes up for a greatest bound below zero.** -/
theorem exists_greatest_lt (hs : t.Shaped dims) (hb : t.bounds = t.measured)
    (hn : t.norm = .manhattan)
    (hreached : ∀ (i : Nat) (A : Axis (Extended K)) I J, (t.space.axes t.first.dims)[i]? = some A →
      t.first.axes[i]? = some I → t.second.axes[i]? = some J → ∃ s e, A.Reached I J s e)
    {l g : K} (hg : g < 0) (hneg : ⟨num l, num g⟩ ∈ t.separations) :
    ∃ d ∈ t.distances, ¬ d ≤ t.bounds.greatest := by
  obtain ⟨rs, x, y, hsep, hx, hy, hes, hrs⟩ := exists_points_reached
    (Space.length_axes hs.fits.checked) hs.fits.dims_eq.symm hreached
  have hsep' : t.separations = rs.map fun r => ⟨num r.1.1, num r.1.2⟩ := hsep
  have hgreatest : t.bounds.greatest = num (rs.map fun r => r.1.2).sum := by
    have hterms : t.separations.map (·.map t.norm.term)
        = (rs.map Prod.fst).map (Bounds.image num) := by
      rw [hsep', hn, List.map_map, List.map_map]
      rfl
    rw [hb, measured_eq_sum (by rw [hn]; nofun), hterms, Bounds.foldl_image Extended.exactSum]
    have hsum := map_list_sum (AddMonoidHom.snd K K) (rs.map Prod.fst)
    rw [List.map_map] at hsum
    exact congrArg num hsum
  have hdistance : t.space.distance t.norm Scalar.infinity x y = num (rs.map Prod.snd).sum := by
    rw [hn, Space.distance_eq_foldl Norm.folds_manhattan hs.fits hx hy hes, List.sum_eq_foldl]
  refine ⟨_, ⟨x, y, hx, hy, hdistance⟩, ?_⟩
  rw [hgreatest, num_le_num, not_le]
  -- along each axis the bound is at most the distance, and along the given one it is below zero
  refine List.sum_lt_sum _ _ (fun r hr => (hrs r hr).1) ?_
  rw [hsep'] at hneg
  obtain ⟨r, hr, heq⟩ := List.mem_map.mp hneg
  obtain ⟨-, rfl⟩ : r.1.1 = l ∧ r.1.2 = g := by simpa using heq
  exact ⟨r, hr, hg.trans_le (hrs r hr).2⟩

/-- Bounds are not sound where the boxes are points along an axis, more than a period apart. -/
theorem not_sound_of_far_points (hs : t.Shaped dims) (hb : t.bounds = t.measured)
    (hn : t.norm = .manhattan) (ht : Torus.ofPeriods (periods.map num) = .ok torus)
    (hspace : t.space = .periodic torus) (hfirst : t.first.Proper) (hsecond : t.second.Proper)
    {i : Nat} {full u v : K} (hfull : 0 < full) (hC : torus.axes[i]? = some (.ofPeriod (num full)))
    (hI : t.first.axes[i]? = some ⟨num u, num u⟩) (hJ : t.second.axes[i]? = some ⟨num v, num v⟩)
    (hfar : full < |u - v|) : ¬ t.Sound := by
  obtain ⟨l, g, hg, hsep⟩ := Axis.exists_separation_neg hfull hfar
  have hneg : ⟨num l, num g⟩ ∈ t.separations := by
    refine List.mem_of_getElem? (i := i)
      (Space.getElem?_separations.mpr ⟨_, _, _, ?_, hI, hJ, hsep⟩)
    rw [hspace, Space.axes, List.getElem?_map, hC]
    rfl
  have hreached := Space.exists_reached ht hfirst hsecond
  rw [← hspace] at hreached
  obtain ⟨d, hd, hlt⟩ := exists_greatest_lt hs hb hn hreached hg hneg
  exact fun h => hlt (h.le_greatest d hd)

omit [IsStrictOrderedRing K] in
/-- A push of each box along an axis of theirs narrows both. -/
theorem boxes_run_pushes (hs : t.Shaped dims) {i : Nat} (hlt : i < dims) (half half' : Half)
    (u v : Extended K) :
    (t.run [.push .first half ⟨i, u⟩, .push .second half' ⟨i, v⟩]).first
        = t.first.narrow half ⟨i, u⟩ ∧
      (t.run [.push .first half ⟨i, u⟩, .push .second half' ⟨i, v⟩]).second
        = t.second.narrow half' ⟨i, v⟩ := by
  have hp := box_act_push (p := ⟨.first, half, ⟨i, u⟩⟩) hs hlt
  have hq := box_act_push (p := ⟨.second, half', ⟨i, v⟩⟩)
    (hs.act (.push .first half ⟨i, u⟩)) hlt
  exact ⟨(hq .first).trans (hp .first),
    (hq .second).trans (congrArg (fun b : Box (Extended K) => b.narrow half' ⟨i, v⟩) (hp .second))⟩

omit [IsStrictOrderedRing K] in
theorem cutsInside_pushes (hs : t.Shaped dims) {i : Nat} (hlt : i < dims) (half half' : Half)
    {u v : Extended K} (hu : ∀ I ∈ t.first.axes[i]?, I.lo ≤ u ∧ u ≤ I.hi)
    (hv : ∀ J ∈ t.second.axes[i]?, J.lo ≤ v ∧ v ≤ J.hi) :
    t.CutsInside [.push .first half ⟨i, u⟩, .push .second half' ⟨i, v⟩] := by
  have hbox : (t.act (.push .first half ⟨i, u⟩)).tracker.second = t.second :=
    box_act_push (p := ⟨.first, half, ⟨i, u⟩⟩) hs hlt .second
  refine ⟨hu, ?_, trivial⟩
  show ∀ J ∈ (t.act (.push .first half ⟨i, u⟩)).tracker.second.axes[i]?, _
  rwa [hbox]

/-- **Boxes not within a period can be cut to where the bounds are not sound**, with exponent one. -/
theorem exists_run_not_sound (hs : t.Shaped dims) (hf : t.stack.frames = [])
    (hb : t.bounds = t.measured) (hn : t.norm = .manhattan)
    (ht : Torus.ofPeriods (periods.map num) = .ok torus) (hspace : t.space = .periodic torus)
    (hfirst : t.first.Proper) (hsecond : t.second.Proper)
    (hfar : ¬ torus.WithinPeriod t.first t.second) :
    ∃ as, t.CutsInside as ∧ ¬ (t.run as).Sound := by
  obtain ⟨i, full, a, b, c, d, ⟨hfull, hab, hcd⟩, hC, hI, hJ, hout⟩ :=
    torus.exists_far ht hfirst hsecond hfar
  obtain ⟨half, half', u, v, hu, hv, huv, hpart, hpart'⟩ := Interval.exists_parts_far hab hcd hout
  have hlt : i < dims := hs.first ▸ (List.getElem?_eq_some_iff.mp hI).1
  have hcut : ∀ I ∈ t.first.axes[i]?, I.lo ≤ num u ∧ num u ≤ I.hi := by
    intro I hI'
    cases hI.symm.trans hI'
    exact ⟨num_le_num.mpr hu.1, num_le_num.mpr hu.2⟩
  have hcut' : ∀ J ∈ t.second.axes[i]?, J.lo ≤ num v ∧ num v ≤ J.hi := by
    intro J hJ'
    cases hJ.symm.trans hJ'
    exact ⟨num_le_num.mpr hv.1, num_le_num.mpr hv.2⟩
  obtain ⟨hfirst', hsecond'⟩ := boxes_run_pushes hs hlt half half' (num u) (num v)
  have hinside := cutsInside_pushes hs hlt half half' hcut hcut'
  have hnum : ∀ p : Push (Extended K), p.action ∈
      [.push .first half ⟨i, num u⟩, .push .second half' ⟨i, num v⟩] →
      ∃ w : K, p.cut.value = num w := by
    rintro ⟨side, half, cut⟩ hmem
    simp only [Push.action, List.mem_cons, List.not_mem_nil, Action.push.injEq, or_false] at hmem
    rcases hmem with ⟨-, -, rfl⟩ | ⟨-, -, rfl⟩
    · exact ⟨u, rfl⟩
    · exact ⟨v, rfl⟩
  -- the boxes are not in order on the way, but they are boxes of numbers
  have hb' := bounds_run_isNum hs hf hb (hspace ▸ Torus.keepsNumbers_ofPeriods ht)
    (hn ▸ fun r => ⟨r, rfl⟩) hfirst.isNum hsecond.isNum hnum
  obtain ⟨hspace', hn'⟩ := space_norm_run hs hf
    [.push .first half ⟨i, num u⟩, .push .second half' ⟨i, num v⟩]
  refine ⟨_, hinside, not_sound_of_far_points (hs.run _) hb' (hn'.trans hn) ht
    (hspace'.trans hspace) ?_ ?_ hfull hC ?_ ?_ huv⟩
  · exact hfirst' ▸ hfirst.narrow hcut half
  · exact hsecond' ▸ hsecond.narrow hcut' half'
  · rw [hfirst', Box.getElem?_narrow]
    exact ⟨_, hI, by rw [if_pos rfl, hpart]⟩
  · rw [hsecond', Box.getElem?_narrow]
    exact ⟨_, hJ, by rw [if_pos rfl, hpart']⟩

/-! ## Runs of new trackers -/

/--
**On a torus bounds are sound at every state exactly for boxes within one period of each other.**

The periods are numbers above zero, and the boxes have as many axes as there are and their ends in
order. If they are within one period of each other, then the bounds are sound after every run whose
pushes cut inside the intervals that they split, whatever the exponent. If not, there is a run with
exponent one that leaves a distance above the greatest bound.
-/
theorem sound_tfae (ht : Torus.ofPeriods (periods.map num) = .ok torus)
    (hdims : first.dims = torus.dims) (hdims' : second.dims = torus.dims) (hfirst : first.Proper)
    (hsecond : second.Proper) :
    [torus.WithinPeriod first second,
      ∀ p, IsExponent p → SoundThroughout (.periodic torus) first second p,
      SoundThroughout (.periodic torus) first second 1].TFAE := by
  have hfit : (Space.periodic torus).Fits first second := by
    refine ⟨hdims.trans hdims'.symm, Space.checkDims_eq_ok_iff.mpr ?_⟩
    rintro _ ⟨⟩
    exact hdims.symm
  tfae_have 1 → 2 := by
    intro hnear p hp ε limit
    have hs := shaped_start hfit (.ofExponent p) ε limit
    have hn := Norm.isMonotone_of_isExponent hp
    refine ⟨_, result_build_eq_ok_iff.mpr ⟨hfit, rfl⟩, ?_⟩
    intro as has
    have horderly : ∀ bs, bs <+: as → _ := fun bs =>
      orderly_run hs rfl (Space.orderly_periodic ht hfirst hsecond hnear) has
    obtain ⟨hspace, hnorm⟩ := space_norm_run hs rfl as
    refine sound_of_measured (hs.run as) (bounds_run_orderly hs rfl rfl hn horderly) ?_ ?_ ?_
    · exact hnorm ▸ hn
    · exact hnorm ▸ Norm.accumulate_zero_nonneg hp
    · exact hspace ▸ horderly as (List.prefix_refl as)
  tfae_have 2 → 3 := fun h => h 1 (.inr (.inl rfl))
  tfae_have 3 → 1 := by
    intro h
    by_contra hfar
    obtain ⟨t, ht', hsound⟩ := h (num 0) Scalar.infinity
    obtain ⟨-, rfl⟩ := result_build_eq_ok_iff.mp ht'
    obtain ⟨as, has, hnot⟩ := exists_run_not_sound (shaped_start hfit _ _ _) rfl rfl
      Norm.ofExponent_one ht rfl hfirst hsecond hfar
    exact hnot (hsound as has)
  tfae_finish

/-- One box beside two others: with cubes the bounds are sound beside the near one, and with exponent
one not beside the far one. -/
theorem sound_tfae_near_far :
    let periods : List ℚ := [10, 12]
    let torus : Torus (Extended ℚ) := ⟨periods.map fun full => .ofPeriod (num full)⟩
    let first : Box (Extended ℚ) := ⟨[⟨num 0, num 2⟩, ⟨num 0, num 5⟩]⟩
    let near : Box (Extended ℚ) := ⟨[⟨num 6, num 9⟩, ⟨num 1, num 12⟩]⟩
    let far : Box (Extended ℚ) := ⟨[⟨num 6, num 9⟩, ⟨num 1, num 13⟩]⟩
    Torus.ofPeriods (periods.map num) = .ok torus ∧ first.Proper ∧ near.Proper ∧ far.Proper ∧
    torus.WithinPeriod first near ∧ ¬ torus.WithinPeriod first far ∧ PowMonotone (3 : ℚ) ∧
    SoundThroughout (.periodic torus) first near (num 3) ∧
    ¬ SoundThroughout (.periodic torus) first far 1 := by
  intro periods torus first near far
  have htorus : Torus.ofPeriods (periods.map num) = .ok torus :=
    Torus.ofPeriods_eq_ok_iff.mpr ⟨by decide +kernel, rfl⟩
  have hfirst : first.Proper := Box.proper_map [(0, 2), (0, 5)] (by decide +kernel)
  have hnear : near.Proper := Box.proper_map [(6, 9), (1, 12)] (by decide +kernel)
  have hfar : far.Proper := Box.proper_map [(6, 9), (1, 13)] (by decide +kernel)
  have hwithin : torus.WithinPeriod first near := by
    decide +kernel
  have hbeyond : ¬ torus.WithinPeriod first far := by
    decide +kernel
  have hpow : PowMonotone (3 : ℚ) := powMonotone_natCast 3
  have hcubes : IsExponent (num (3 : ℚ)) :=
    .inr (.inr (.inr ⟨3, rfl, hpow, by decide +kernel⟩))
  have hiff := (sound_tfae htorus (show first.dims = torus.dims from rfl)
    (show near.dims = torus.dims from rfl) hfirst hnear).out 0 1
  have hiff' := (sound_tfae htorus (show first.dims = torus.dims from rfl)
    (show far.dims = torus.dims from rfl) hfirst hfar).out 0 2
  exact ⟨htorus, hfirst, hnear, hfar, hwithin, hbeyond, hpow, hiff.mp hwithin _ hcubes,
    fun h => hbeyond (hiff'.mpr h)⟩

/-- Two points that are two periods and three apart on the line: with exponent one both bounds are
below zero, and with exponent two both are above the distance. -/
theorem not_sound_two_periods_apart :
    let torus : Torus (Extended ℚ) := ⟨[.ofPeriod (num 10)]⟩
    let first : Box (Extended ℚ) := .ofPoint [num 23]
    let second : Box (Extended ℚ) := .ofPoint [num 0]
    Torus.ofPeriods [num 10] = .ok torus ∧
    (∃ t, (build (.periodic torus) first second (.ofExponent 1) (num 0) (.inf false)).result
        = .ok t ∧ t.bounds.least = num (-13) ∧ t.bounds.greatest = num (-13) ∧
      num 3 ∈ t.distances ∧ ¬ t.Sound) ∧
    ∃ t, (build (.periodic torus) first second (.ofExponent Scalar.two) (num 0) (.inf false)).result
        = .ok t ∧ t.bounds.least = num 169 ∧ t.bounds.greatest = num 169 ∧
      num 9 ∈ t.distances ∧ ¬ t.Sound := by
  intro torus first second
  have htorus : Torus.ofPeriods [num 10] = .ok torus :=
    Torus.ofPeriods_eq_ok_iff.mpr ⟨by decide +kernel, rfl⟩
  have hfit : (Space.periodic torus).Fits first second := ⟨rfl, rfl⟩
  have hx : first.Holds [num 23] := .cons ⟨num_le_num.mpr le_rfl, num_le_num.mpr le_rfl⟩ .nil
  have hy : second.Holds [num 0] := .cons ⟨num_le_num.mpr le_rfl, num_le_num.mpr le_rfl⟩ .nil
  refine ⟨htorus, ⟨_, result_build_eq_ok_iff.mpr ⟨hfit, rfl⟩, ?_⟩, _,
    result_build_eq_ok_iff.mpr ⟨hfit, rfl⟩, ?_⟩
  · generalize ht : start (.periodic torus) first second (.ofExponent 1) (num 0) (.inf false)
      = t
    have hleast : t.bounds.least = num (-13) := by
      rw [← ht]
      decide +kernel
    have hgreatest : t.bounds.greatest = num (-13) := by
      rw [← ht]
      decide +kernel
    have hmem : num 3 ∈ t.distances := by
      rw [← ht]
      exact ⟨_, _, hx, hy, by decide +kernel⟩
    refine ⟨hleast, hgreatest, hmem, fun h => ?_⟩
    exact absurd (hgreatest ▸ h.le_greatest _ hmem) (by decide +kernel)
  · generalize ht : start (.periodic torus) first second (.ofExponent Scalar.two) (num 0) (.inf false)
      = t
    have hleast : t.bounds.least = num 169 := by
      rw [← ht]
      decide +kernel
    have hgreatest : t.bounds.greatest = num 169 := by
      rw [← ht]
      decide +kernel
    have hmem : num 9 ∈ t.distances := by
      rw [← ht]
      exact ⟨_, _, hx, hy, by decide +kernel⟩
    refine ⟨hleast, hgreatest, hmem, fun h => ?_⟩
    exact absurd (hleast ▸ h.least_le _ hmem) (by decide +kernel)

end Tracker

end MinkowskiBounds
