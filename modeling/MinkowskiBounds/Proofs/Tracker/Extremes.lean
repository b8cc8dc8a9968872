import MinkowskiBounds.Proofs.Space.Extremes
import MinkowskiBounds.Proofs.Tracker.Fresh

/-!
# Exact bounds at every state

Over exact numbers the bounds that a tracker holds are the least and the greatest raised distance
between a point of its first and a point of its second box, at every state that it reaches by cuts
inside the intervals that they split.

Such cuts keep the intervals of both boxes in order, and on a circle within one period, because they
leave parts of intervals. Boxes in order have exact bounds (`Space.extremes_bounds`) that consist of
numbers; sums of numbers can be corrected, so that the bounds are up to date.

* `Tracker.extremes_run_unbounded` — in unbounded space
* `Tracker.extremes_run_periodic` — on a torus, for boxes within one period of each other
-/

namespace MinkowskiBounds

open Extended

/-! ## Cuts inside -/

section

variable {α : Type} [Scalar α]

namespace Tracker

/-- A push cuts inside the interval that it splits. -/
def CutInside (t : Tracker α) : Action α → Prop
  | .push side _ cut => ∀ I ∈ (t.box side).axes[cut.axis]?, I.lo ≤ cut.value ∧ cut.value ≤ I.hi
  | .pop => True
  | .tryPop => True

/-- All pushes of a run cut inside the intervals that they split, as they are by then. -/
def CutsInside : Tracker α → List (Action α) → Prop
  | _, [] => True
  | t, a :: as => t.CutInside a ∧ CutsInside (t.act a).tracker as

instance (t : Tracker α) : (a : Action α) → Decidable (t.CutInside a)
  | .push side _ cut => inferInstanceAs
      (Decidable (∀ I ∈ (t.box side).axes[cut.axis]?, I.lo ≤ cut.value ∧ cut.value ≤ I.hi))
  | .pop => isTrue trivial
  | .tryPop => isTrue trivial

instance decidableCutsInside : (t : Tracker α) → (as : List (Action α)) → Decidable (t.CutsInside as)
  | _, [] => isTrue trivial
  | t, a :: as =>
    have := decidableCutsInside (t.act a).tracker as
    inferInstanceAs (Decidable (t.CutInside a ∧ (t.act a).tracker.CutsInside as))

theorem CutsInside.of_prefix {t : Tracker α} {as bs : List (Action α)} {a : Action α}
    (h : t.CutsInside as) (hbs : bs ++ [a] <+: as) : (t.run bs).CutInside a := by
  obtain ⟨rest, rfl⟩ := hbs
  induction bs generalizing t with
  | nil => exact h.1
  | cons b bs ih => exact ih h.2

/-- **What cuts inside preserve of two boxes** holds of them on every run whose pushes cut inside. -/
theorem boxes_run_inside {t : Tracker α} {dims : Nat} {as bs : List (Action α)}
    (hs : t.Shaped dims) (hf : t.stack.frames = []) {P : Box α → Box α → Prop}
    (hfirst : ∀ {a b : Box α} {cut : Cut α}, P a b →
      (∀ I ∈ a.axes[cut.axis]?, I.lo ≤ cut.value ∧ cut.value ≤ I.hi) →
      ∀ half, P (a.narrow half cut) b)
    (hsecond : ∀ {a b : Box α} {cut : Cut α}, P a b →
      (∀ J ∈ b.axes[cut.axis]?, J.lo ≤ cut.value ∧ cut.value ≤ J.hi) →
      ∀ half, P a (b.narrow half cut))
    (h : P t.first t.second) (has : t.CutsInside as) (hbs : bs <+: as) :
    P (t.run bs).first (t.run bs).second := by
  refine run_induction hs hf (P := fun s => P s.first s.second) (fun _ _ hP => hP) h bs ?_
  rintro cs ⟨side, half, cut⟩ s hcs hP hp
  have hcut := has.of_prefix (hcs.trans hbs)
  obtain ⟨h1, h2⟩ := boxes_of_push (hs.run cs) hp
  rw [h1, h2]
  cases side with
  | first => exact hfirst hP hcut half
  | second => exact hsecond hP hcut half

end Tracker

/-- Along each axis the raw separations of two boxes are within one period. -/
def Torus.WithinPeriod (torus : Torus α) (a b : Box α) : Prop :=
  ∀ P ∈ torus.axes.zip (a.axes.zip b.axes),
    -P.1.full ≤ P.2.1.lo - P.2.2.hi ∧ P.2.1.hi - P.2.2.lo ≤ P.1.full

instance (torus : Torus α) (a b : Box α) : Decidable (torus.WithinPeriod a b) :=
  inferInstanceAs (Decidable (∀ P ∈ torus.axes.zip (a.axes.zip b.axes), _ ∧ _))

end

variable {K : Type} [Field K] [LinearOrder K] [FloorRing K] [Powers K]

/-! ## Boxes in order -/

variable {first second : Box (Extended K)} {p : Extended K}

/-- The axes of a torus made from numbers are circles of periods above zero. -/
theorem Space.exists_period {periods : List K} {torus : Torus (Extended K)}
    (ht : Torus.ofPeriods (periods.map num) = .ok torus) {dims i : Nat} {A : Axis (Extended K)}
    (hA : ((Space.periodic torus).axes dims)[i]? = some A) : ∃ full : K,
    0 < full ∧ torus.axes[i]? = some (.ofPeriod (num full)) ∧
      A = .circle (.ofPeriod (num full)) := by
  obtain ⟨hpos, rfl⟩ := Torus.ofPeriods_eq_ok_iff.mp ht
  rw [axes, List.getElem?_map, Option.map_eq_some_iff] at hA
  obtain ⟨C, hC, rfl⟩ := hA
  obtain ⟨_, hmem, rfl⟩ := List.mem_map.mp (List.mem_of_getElem? hC)
  have hfull := hpos _ hmem
  obtain ⟨full, -, rfl⟩ := List.mem_map.mp hmem
  exact ⟨full, num_lt_num.mp hfull, hC, rfl⟩

theorem Space.orderly_periodic {periods : List K} {torus : Torus (Extended K)}
    (ht : Torus.ofPeriods (periods.map num) = .ok torus) (hfirst : first.Proper)
    (hsecond : second.Proper) (hnear : torus.WithinPeriod first second) :
    (Space.periodic torus).Orderly first second := by
  intro i A I J hA hI hJ
  obtain ⟨full, hfull, hC, rfl⟩ := exists_period ht hA
  have hfar := hnear (.ofPeriod (num full), I, J) (List.mem_of_getElem?
    (List.getElem?_zip_eq_some.mpr ⟨hC, List.getElem?_zip_eq_some.mpr ⟨hI, hJ⟩⟩))
  obtain ⟨a, b, rfl, hab⟩ := hfirst I (List.mem_of_getElem? hI)
  obtain ⟨c, d, rfl, hcd⟩ := hsecond J (List.mem_of_getElem? hJ)
  simp only [Circle.ofPeriod, neg_num, num_sub, num_le_num] at hfar
  exact .circle hfull hab hcd hfar.1 hfar.2

namespace Tracker

variable [IsStrictOrderedRing K] {t : Tracker (Extended K)} {dims : Nat}
  {as : List (Action (Extended K))}

/-- Cuts inside keep the boxes in order. -/
theorem orderly_run (hs : t.Shaped dims) (hf : t.stack.frames = [])
    (h : t.space.Orderly t.first t.second) (has : t.CutsInside as) {bs : List (Action (Extended K))}
    (hbs : bs <+: as) : t.space.Orderly (t.run bs).first (t.run bs).second :=
  boxes_run_inside hs hf (fun h hcut half => h.narrow_first hcut half)
    (fun h hcut half => h.narrow_second hcut half) h has hbs

/-- Bounds up to date are exact where the boxes are in order. -/
theorem extremes_of_measured (hs : t.Shaped dims) (hb : t.bounds = t.measured)
    (hn : t.norm.IsMonotone) (h : t.space.Orderly t.first t.second) :
    IsLeast (t.space.distances t.norm t.first t.second) t.bounds.least ∧
      IsGreatest (t.space.distances t.norm t.first t.second) t.bounds.greatest := by
  rw [hb]
  exact Space.extremes_bounds hn hs.fits h

/-- Boxes in order contribute numbers. -/
theorem exactShares_of_orderly (hs : t.Shaped dims) (hn : t.norm.IsMonotone)
    (hc : t.norm ≠ .chebyshev) (h : t.space.Orderly t.first t.second) : t.ExactShares num := by
  intro s hmem
  obtain ⟨f, -, hterm⟩ := hn.resolve_left hc
  obtain ⟨l, g, hl, hg, rfl⟩ := h.exists_of_mem_separations hs.fits s hmem
  exact ⟨(f l, f g), congrArg₂ Bounds.mk (hterm l hl).symm (hterm g hg).symm⟩

/-- The bounds are up to date after a run on which the boxes were always in order. -/
theorem bounds_run_orderly (hs : t.Shaped dims) (hf : t.stack.frames = [])
    (hb : t.bounds = t.measured) (hn : t.norm.IsMonotone)
    (h : ∀ bs, bs <+: as → t.space.Orderly (t.run bs).first (t.run bs).second) :
    (t.run as).bounds = (t.run as).measured := by
  refine bounds_run_exact Extended.exactSum hs hf hb as (or_iff_not_imp_left.mpr ?_)
  -- a correction is exact where the axes contribute numbers before and after it, so that boxes in
  -- order are needed at every state on the way
  intro hc bs hbs
  obtain ⟨hspace, hnorm⟩ := space_norm_run hs hf bs
  exact exactShares_of_orderly (hs.run bs) (hnorm ▸ hn) (hnorm ▸ hc) (hspace ▸ h bs hbs)

/-- **Bounds up to date stay exact** after cuts inside. -/
theorem extremes_run (hs : t.Shaped dims) (hf : t.stack.frames = []) (hb : t.bounds = t.measured)
    (hn : t.norm.IsMonotone) (h : t.space.Orderly t.first t.second) (has : t.CutsInside as) :
    IsLeast (t.space.distances t.norm (t.run as).first (t.run as).second) (t.run as).bounds.least ∧
      IsGreatest (t.space.distances t.norm (t.run as).first (t.run as).second)
        (t.run as).bounds.greatest := by
  have hbounds := bounds_run_orderly hs hf hb hn fun bs hbs => orderly_run hs hf h has hbs
  obtain ⟨hspace, hnorm⟩ := space_norm_run hs hf as
  have horderly := orderly_run hs hf h has (List.prefix_refl as)
  rw [← hspace, ← hnorm]
  exact extremes_of_measured (hs.run as) hbounds (hnorm ▸ hn) (hspace ▸ horderly)

/-! ## Runs of new trackers -/

/--
**In unbounded space the bounds are exact at every state.**

For boxes with equally many axes and ends in order, and for any exponent that is infinite or whose
power is monotone, a tracker is built. After every run whose pushes cut inside the intervals that
they split, its bounds are the least and the greatest raised distance between a point of each box.
-/
theorem extremes_run_unbounded (ε limit : Extended K) (hdims : first.dims = second.dims) (hfirst : first.Proper)
    (hsecond : second.Proper) (hp : p = Scalar.infinity ∨ ∃ q, p = num q ∧ PowMonotone q) :
    ∃ t, (build .unbounded first second (.ofExponent p) ε limit).result = .ok t ∧
      ∀ as, t.CutsInside as →
        IsLeast (Space.unbounded.distances (.ofExponent p) (t.run as).first (t.run as).second)
          (t.run as).bounds.least ∧
        IsGreatest (Space.unbounded.distances (.ofExponent p) (t.run as).first (t.run as).second)
          (t.run as).bounds.greatest := by
  have hfit : Space.unbounded.Fits first second := ⟨hdims, rfl⟩
  refine ⟨_, result_build_eq_ok_iff.mpr ⟨hfit, rfl⟩, ?_⟩
  intro as has
  exact extremes_run (shaped_start hfit (.ofExponent p) ε limit) rfl rfl
    (Norm.isMonotone_ofExponent hp) (Space.orderly_unbounded hfirst hsecond) has

/-- A push of each box, a push that fails and a pop, with cubes. -/
theorem extremes_run_unbounded_cubes :
    let first : Box (Extended ℚ) := ⟨[⟨num 0, num 4⟩, ⟨num 0, num 2⟩]⟩
    let second : Box (Extended ℚ) := ⟨[⟨num 3, num 9⟩, ⟨num 5, num 5⟩]⟩
    let n : Norm (Extended ℚ) := .ofExponent (num 3)
    let as : List (Action (Extended ℚ)) :=
      [.push .first .lower ⟨0, num 1⟩, .push .second .lower ⟨0, num 6⟩,
        .push .first .upper ⟨7, num 0⟩, .tryPop, .push .first .upper ⟨1, num 1⟩]
    first.Proper ∧ second.Proper ∧ PowMonotone (3 : ℚ) ∧
    ∃ t, (build .unbounded first second n (num 0) (.inf false)).result = .ok t ∧ t.CutsInside as ∧
      IsLeast (Space.unbounded.distances n (t.run as).first (t.run as).second) (num 35) ∧
      IsGreatest (Space.unbounded.distances n (t.run as).first (t.run as).second) (num 793) := by
  intro first second n as
  have hfirst : first.Proper := Box.proper_map [(0, 4), (0, 2)] (by decide +kernel)
  have hsecond : second.Proper := Box.proper_map [(3, 9), (5, 5)] (by decide +kernel)
  have hpow : PowMonotone (3 : ℚ) := powMonotone_natCast 3
  obtain ⟨t, ht, hextremes⟩ := extremes_run_unbounded (num 0) (.inf false)
    (show first.dims = second.dims from rfl) hfirst hsecond (.inr ⟨3, rfl, hpow⟩)
  obtain ⟨-, rfl⟩ := result_build_eq_ok_iff.mp ht
  have has : (start .unbounded first second n (num 0) (.inf false)).CutsInside as := by
    decide +kernel
  have hleast : ((start .unbounded first second n (num 0) (.inf false)).run as).bounds.least
      = num 35 := by
    decide +kernel
  have hgreatest : ((start .unbounded first second n (num 0) (.inf false)).run as).bounds.greatest
      = num 793 := by
    decide +kernel
  have hrun := hextremes as has
  rw [hleast, hgreatest] at hrun
  exact ⟨hfirst, hsecond, hpow, _, ht, has, hrun⟩

/--
**On a torus the bounds are exact at every state**, for boxes within one period of each other.

The periods are numbers above zero; otherwise as in unbounded space.
-/
theorem extremes_run_periodic {periods : List K} {torus : Torus (Extended K)} (ε limit : Extended K)
    (ht : Torus.ofPeriods (periods.map num) = .ok torus) (hdims : first.dims = torus.dims)
    (hdims' : second.dims = torus.dims) (hfirst : first.Proper) (hsecond : second.Proper)
    (hnear : torus.WithinPeriod first second)
    (hp : p = Scalar.infinity ∨ ∃ q, p = num q ∧ PowMonotone q) :
    ∃ t, (build (.periodic torus) first second (.ofExponent p) ε limit).result = .ok t ∧
      ∀ as, t.CutsInside as →
        IsLeast ((Space.periodic torus).distances (.ofExponent p) (t.run as).first (t.run as).second)
          (t.run as).bounds.least ∧
        IsGreatest
          ((Space.periodic torus).distances (.ofExponent p) (t.run as).first (t.run as).second)
          (t.run as).bounds.greatest := by
  have hfit : (Space.periodic torus).Fits first second := by
    refine ⟨hdims.trans hdims'.symm, Space.checkDims_eq_ok_iff.mpr ?_⟩
    rintro _ ⟨⟩
    exact hdims.symm
  refine ⟨_, result_build_eq_ok_iff.mpr ⟨hfit, rfl⟩, ?_⟩
  intro as has
  exact extremes_run (shaped_start hfit (.ofExponent p) ε limit) rfl rfl
    (Norm.isMonotone_ofExponent hp) (Space.orderly_periodic ht hfirst hsecond hnear) has

/-- A stretch that reaches across half a period, cut twice, beside one that overlaps; with cubes. -/
theorem extremes_run_periodic_cubes :
    let periods : List ℚ := [10, 12]
    let torus : Torus (Extended ℚ) := ⟨periods.map fun full => .ofPeriod (num full)⟩
    let first : Box (Extended ℚ) := ⟨[⟨num 0, num 2⟩, ⟨num 0, num 5⟩]⟩
    let second : Box (Extended ℚ) := ⟨[⟨num 6, num 9⟩, ⟨num 1, num 12⟩]⟩
    let n : Norm (Extended ℚ) := .ofExponent (num 3)
    let as : List (Action (Extended ℚ)) :=
      [.push .second .lower ⟨0, num 7⟩, .push .second .upper ⟨1, num 4⟩, .pop,
        .push .first .upper ⟨0, num 1⟩]
    Torus.ofPeriods (periods.map num) = .ok torus ∧ first.Proper ∧ second.Proper ∧
    torus.WithinPeriod first second ∧ PowMonotone (3 : ℚ) ∧
    ∃ t, (build (.periodic torus) first second n (num 0) (.inf false)).result = .ok t ∧
      t.CutsInside as ∧
      IsLeast ((Space.periodic torus).distances n (t.run as).first (t.run as).second) (num 64) ∧
      IsGreatest ((Space.periodic torus).distances n (t.run as).first (t.run as).second)
        (num 341) := by
  intro periods torus first second n as
  have htorus : Torus.ofPeriods (periods.map num) = .ok torus :=
    Torus.ofPeriods_eq_ok_iff.mpr ⟨by decide +kernel, rfl⟩
  have hfirst : first.Proper := Box.proper_map [(0, 2), (0, 5)] (by decide +kernel)
  have hsecond : second.Proper := Box.proper_map [(6, 9), (1, 12)] (by decide +kernel)
  have hnear : torus.WithinPeriod first second := by
    decide +kernel
  have hpow : PowMonotone (3 : ℚ) := powMonotone_natCast 3
  obtain ⟨t, ht, hextremes⟩ := extremes_run_periodic (num 0) (.inf false) htorus
    (show first.dims = torus.dims from rfl) (show second.dims = torus.dims from rfl) hfirst hsecond
    hnear (.inr ⟨3, rfl, hpow⟩)
  obtain ⟨-, rfl⟩ := result_build_eq_ok_iff.mp ht
  have has : (start (.periodic torus) first second n (num 0) (.inf false)).CutsInside as := by
    decide +kernel
  have hleast : ((start (.periodic torus) first second n (num 0) (.inf false)).run as).bounds.least
      = num 64 := by
    decide +kernel
  have hgreatest :
      ((start (.periodic torus) first second n (num 0) (.inf false)).run as).bounds.greatest
        = num 341 := by
    decide +kernel
  have hrun := hextremes as has
  rw [hleast, hgreatest] at hrun
  exact ⟨htorus, hfirst, hsecond, hnear, hpow, _, ht, has, hrun⟩

end Tracker

end MinkowskiBounds
