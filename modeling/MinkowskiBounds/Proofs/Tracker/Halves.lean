import MinkowskiBounds.Proofs.Box.Halves
import MinkowskiBounds.Proofs.Tracker.Extremes

/-!
# Bounds of halves

Cutting a box inside leaves two halves that hold the points of the box between them and no others.
Bounds that are exact for the box and for both halves are therefore those of the halves put together:
the least distance is the smaller of their least distances, and the greatest the larger of their
greatest (`Tracker.coveredByHalves_of_measured`). How the bounds come about along each axis, in whichever
case on a circle, plays no part.

* `Tracker.coveredByHalves_run` — at every state of a run on which the boxes are in order
-/

namespace MinkowskiBounds

open Extended

variable {K : Type} [Field K] [LinearOrder K] [FloorRing K] [Powers K]

/-! ## Boxes in order -/

namespace Space

variable {space : Space (Extended K)} {a b : Box (Extended K)}

/-- Boxes in order are boxes of numbers. -/
theorem Orderly.isNum (h : space.Orderly a b) (hfit : space.Fits a b) : a.IsNum ∧ b.IsNum := by
  have haxis : ∀ {i : Nat} {I J : Interval (Extended K)}, a.axes[i]? = some I →
      b.axes[i]? = some J → I.IsNum ∧ J.IsNum := by
    intro i I J hI hJ
    have hi : i < (space.axes a.dims).length := by
      rw [length_axes hfit.checked]
      exact (List.getElem?_eq_some_iff.mp hI).1
    exact (h i _ I J (List.getElem?_eq_getElem hi) hI hJ).isNum
  have hlen : a.axes.length = b.axes.length := hfit.dims_eq
  constructor
  · intro I hI
    obtain ⟨i, hI⟩ := List.mem_iff_getElem?.mp hI
    have hi : i < b.axes.length := hlen ▸ (List.getElem?_eq_some_iff.mp hI).1
    exact (haxis hI (List.getElem?_eq_getElem hi)).1
  · intro J hJ
    obtain ⟨i, hJ⟩ := List.mem_iff_getElem?.mp hJ
    have hi : i < a.axes.length := hlen ▸ (List.getElem?_eq_some_iff.mp hJ).1
    exact (haxis (List.getElem?_eq_getElem hi) hJ).2

end Space

namespace Tracker

variable {t : Tracker (Extended K)} {dims : Nat} {side : Side} {half : Half}
  {cut : Cut (Extended K)}

/-! ## Distances of halves -/

/-- The raised distances between the points of the two boxes, as narrowed so far. -/
def distances (t : Tracker (Extended K)) : Set (Extended K) :=
  t.space.distances t.norm t.first t.second

/-- Narrowing a box adds no distance. -/
theorem distances_narrow_subset (hfirst : t.first.IsNum) (hsecond : t.second.IsNum)
    (hcut : t.CutInside (.push side half cut)) :
    (t.narrow side half cut).distances ⊆ t.distances := by
  cases side with
  | first =>
    rintro d ⟨x, y, hx, hy, hd⟩
    exact ⟨x, y, hfirst.holds_of_half hcut hx, hy, hd⟩
  | second =>
    rintro d ⟨x, y, hx, hy, hd⟩
    exact ⟨x, y, hx, hsecond.holds_of_half hcut hy, hd⟩

/-- Two halves leave no distance out. -/
theorem exists_half_mem_distances (hfirst : t.first.IsNum) (hsecond : t.second.IsNum)
    (hcut : t.CutInside (.push side half cut)) {d : Extended K} (hd : d ∈ t.distances) :
    ∃ half, d ∈ (t.narrow side half cut).distances := by
  obtain ⟨x, y, hx, hy, hd⟩ := hd
  cases side with
  | first =>
    obtain ⟨half, hx⟩ := hfirst.exists_half_holds hcut hx
    exact ⟨half, x, y, hx, hy, hd⟩
  | second =>
    obtain ⟨half, hy⟩ := hsecond.exists_half_holds hcut hy
    exact ⟨half, x, y, hx, hy, hd⟩

variable [IsStrictOrderedRing K]

/-- A push that cuts inside comes out well, and its bounds are exact for the half that it leaves. -/
theorem exists_push_extremes (hs : t.Shaped dims) (hb : t.bounds = t.measured)
    (hn : t.norm.IsMonotone) (h : t.space.Orderly t.first t.second) (hlt : cut.axis < dims)
    (hcut : t.CutInside (.push side half cut)) : ∃ t', t.push side half cut = (.ok (), t') ∧
      IsLeast (t.narrow side half cut).distances t'.bounds.least ∧
      IsGreatest (t.narrow side half cut).distances t'.bounds.greatest := by
  obtain ⟨t', hp⟩ := (exists_push_iff hs side half cut).mpr hlt
  obtain ⟨hfirst, hsecond⟩ := boxes_of_push hs hp
  obtain ⟨hspace, hnorm⟩ : t'.space = t.space ∧ t'.norm = t.norm := by
    obtain ⟨I, bounds, rfl, -⟩ := exists_of_push hs hp
    cases side <;> exact ⟨rfl, rfl⟩
  have hs' : t'.Shaped dims := by
    have hact := hs.act (.push side half cut)
    rwa [tracker_act_push, hp] at hact
  have horderly : t'.space.Orderly t'.first t'.second := by
    rw [hspace, hfirst, hsecond]
    cases side with
    | first => exact h.narrow_first hcut half
    | second => exact h.narrow_second hcut half
  have hb' : t'.bounds = t'.measured := by
    by_cases hc : t.norm = .chebyshev
    · exact bounds_of_push_chebyshev hs hc hp
    · -- the correction is exact, since boxes in order contribute numbers before and after it
      exact bounds_of_push_exact Extended.exactSum hs hc hb hp (exactShares_of_orderly hs hn hc h)
        (exactShares_of_orderly hs' (hnorm ▸ hn) (hnorm ▸ hc) horderly)
  have hdistances : (t.narrow side half cut).distances
      = t'.space.distances t'.norm t'.first t'.second := by
    rw [hspace, hnorm, hfirst, hsecond]
    cases side <;> rfl
  rw [hdistances]
  exact ⟨t', hp, extremes_of_measured hs' hb' (hnorm ▸ hn) horderly⟩

/-- Whichever box is cut inside, the bounds are the least and the greatest of those of its halves. -/
def CoveredByHalves (t : Tracker (Extended K)) : Prop :=
  ∀ side (cut : Cut (Extended K)),
    (∃ I, (t.box side).axes[cut.axis]? = some I ∧ I.lo ≤ cut.value ∧ cut.value ≤ I.hi) →
    ∃ lower upper, t.push side .lower cut = (.ok (), lower) ∧
      t.push side .upper cut = (.ok (), upper) ∧
      IsLeast {lower.bounds.least, upper.bounds.least} t.bounds.least ∧
      IsGreatest {lower.bounds.greatest, upper.bounds.greatest} t.bounds.greatest

/-- **Bounds up to date are covered by those of halves** where the boxes are in order. -/
theorem coveredByHalves_of_measured (hs : t.Shaped dims) (hb : t.bounds = t.measured)
    (hn : t.norm.IsMonotone) (h : t.space.Orderly t.first t.second) : t.CoveredByHalves := by
  rintro side cut ⟨I, hI, hlo, hhi⟩
  have hlt : cut.axis < dims := hs.dims_box side ▸ (List.getElem?_eq_some_iff.mp hI).1
  have hcut : ∀ half, t.CutInside (.push side half cut) := by
    intro half J hJ
    rw [hI] at hJ
    cases hJ
    exact ⟨hlo, hhi⟩
  obtain ⟨hfirst, hsecond⟩ := h.isNum hs.fits
  obtain ⟨lower, hlower, hleast, hgreatest⟩ := exists_push_extremes hs hb hn h hlt (hcut .lower)
  obtain ⟨upper, hupper, hleast', hgreatest'⟩ := exists_push_extremes hs hb hn h hlt (hcut .upper)
  obtain ⟨hl, hg⟩ := extremes_of_measured hs hb hn h
  have hsub := fun half => distances_narrow_subset hfirst hsecond (hcut half)
  have hsplit := fun {d} => exists_half_mem_distances (d := d) hfirst hsecond (hcut .lower)
  have hl_lower : t.bounds.least ≤ lower.bounds.least := hl.2 (hsub .lower hleast.1)
  have hl_upper : t.bounds.least ≤ upper.bounds.least := hl.2 (hsub .upper hleast'.1)
  have hg_lower : lower.bounds.greatest ≤ t.bounds.greatest := hg.2 (hsub .lower hgreatest.1)
  have hg_upper : upper.bounds.greatest ≤ t.bounds.greatest := hg.2 (hsub .upper hgreatest'.1)
  refine ⟨lower, upper, hlower, hupper, ⟨?_, ?_⟩, ?_, ?_⟩
  -- the half that has the least distance has it as its own least, and so for the greatest
  · obtain ⟨half, hmem⟩ := hsplit hl.1
    cases half with
    | lower => exact .inl (eq_of_le_of_ge hl_lower (hleast.2 hmem))
    | upper => exact .inr (eq_of_le_of_ge hl_upper (hleast'.2 hmem))
  · rintro _ (rfl | rfl)
    · exact hl_lower
    · exact hl_upper
  · obtain ⟨half, hmem⟩ := hsplit hg.1
    cases half with
    | lower => exact .inl (eq_of_le_of_ge (hgreatest.2 hmem) hg_lower)
    | upper => exact .inr (eq_of_le_of_ge (hgreatest'.2 hmem) hg_upper)
  · rintro _ (rfl | rfl)
    · exact hg_lower
    · exact hg_upper

end Tracker

/-! ## Runs of new trackers -/

/-- Unbounded, or a torus made from periods that are numbers. -/
def Space.OfNumbers (space : Space (Extended K)) : Prop :=
  ∀ torus, space = .periodic torus →
    ∃ periods : List K, Torus.ofPeriods (periods.map num) = .ok torus

/-- The boxes have their ends in order, and on a torus they are within one period of each other. -/
structure Space.Suits (space : Space (Extended K)) (a b : Box (Extended K)) : Prop where
  first : a.Proper
  second : b.Proper
  near : ∀ torus, space = .periodic torus → torus.WithinPeriod a b

theorem Space.Suits.orderly [IsStrictOrderedRing K] {space : Space (Extended K)}
    {a b : Box (Extended K)} (h : space.Suits a b) (hspace : space.OfNumbers) :
    space.Orderly a b := by
  cases space with
  | unbounded => exact orderly_unbounded h.first h.second
  | periodic torus =>
    obtain ⟨periods, ht⟩ := hspace torus rfl
    exact orderly_periodic ht h.first h.second (h.near torus rfl)

namespace Tracker

variable [IsStrictOrderedRing K] {space : Space (Extended K)} {first second : Box (Extended K)}
  {p : Extended K}

/--
**At every state the bounds are covered by those of the halves of either box.**

The space is unbounded or a torus whose periods are numbers, and the exponent is infinite or one whose
power is monotone. A box may be cut anywhere inside, along any axis: the least distance is the smaller
of those after a push to the lower and to the upper half, and the greatest the larger, so that neither
half has a smaller least or a larger greatest distance.

This holds after every run whose pushes cut inside the intervals that they split, if the boxes were
in order, and on a torus within one period of each other, to begin with. It holds after any other run
as well, if the boxes are so at its end and no contribution on the way was anything but a number. For
boxes of numbers cut at numbers none was where space and norm keep numbers (`exactShares_run_isNum`).
-/
theorem coveredByHalves_run (ε limit : Extended K) (hspace : space.OfNumbers)
    (hfit : space.Fits first second)
    (hp : p = Scalar.infinity ∨ ∃ q, p = num q ∧ PowMonotone q) :
    ∃ t, (build space first second (.ofExponent p) ε limit).result = .ok t ∧
      (space.Suits first second → ∀ as, t.CutsInside as → (t.run as).CoveredByHalves) ∧
      ∀ as, t.norm = .chebyshev ∨ (∀ bs, bs <+: as → (t.run bs).ExactShares num) →
        space.Suits (t.run as).first (t.run as).second → (t.run as).CoveredByHalves := by
  have hs := shaped_start hfit (.ofExponent p) ε limit
  have hn : (start space first second (.ofExponent p) ε limit).norm.IsMonotone :=
    Norm.isMonotone_ofExponent hp
  have hsn := space_norm_run hs rfl
  refine ⟨_, result_build_eq_ok_iff.mpr ⟨hfit, rfl⟩, ?_, ?_⟩
  · intro hsuits as has
    have horderly : ∀ bs, bs <+: as → _ := fun bs => orderly_run hs rfl (hsuits.orderly hspace) has
    have hb := bounds_run_orderly hs rfl rfl hn horderly
    refine coveredByHalves_of_measured (hs.run as) hb ((hsn as).2 ▸ hn) ?_
    rw [(hsn as).1]
    exact horderly as (List.prefix_refl as)
  · intro as hexact hsuits
    have hb := bounds_run_exact Extended.exactSum hs rfl rfl as hexact
    refine coveredByHalves_of_measured (hs.run as) hb ((hsn as).2 ▸ hn) ?_
    rw [(hsn as).1]
    exact hsuits.orderly hspace

/-- A stretch across half a period, cut again after two pushes and a pop; with cubes. The bounds are
covered as well after a run on which a box was inverted in between. -/
theorem coveredByHalves_run_cubes :
    let periods : List ℚ := [10, 12]
    let torus : Torus (Extended ℚ) := ⟨periods.map fun full => .ofPeriod (num full)⟩
    let first : Box (Extended ℚ) := ⟨[⟨num 0, num 3⟩, ⟨num 0, num 5⟩]⟩
    let second : Box (Extended ℚ) := ⟨[⟨num 6, num 9⟩, ⟨num 1, num 12⟩]⟩
    let n : Norm (Extended ℚ) := .ofExponent (num 3)
    let as : List (Action (Extended ℚ)) :=
      [.push .second .lower ⟨0, num 7⟩, .push .second .upper ⟨1, num 4⟩, .pop]
    let inverting : List (Action (Extended ℚ)) :=
      [.push .first .upper ⟨0, num 7⟩, .push .first .lower ⟨0, num 8⟩]
    (Space.periodic torus).OfNumbers ∧ (Space.periodic torus).Fits first second ∧
    (Space.periodic torus).Suits first second ∧ PowMonotone (3 : ℚ) ∧
    ∃ t lower upper, (build (.periodic torus) first second n (num 0) (.inf false)).result = .ok t ∧
      t.CutsInside as ∧
      (t.run as).push .first .lower ⟨0, num 1⟩ = (.ok (), lower) ∧
      (t.run as).push .first .upper ⟨0, num 1⟩ = (.ok (), upper) ∧
      IsLeast {lower.bounds.least, upper.bounds.least} (t.run as).bounds.least ∧
      IsGreatest {lower.bounds.greatest, upper.bounds.greatest} (t.run as).bounds.greatest ∧
      (t.run inverting).CoveredByHalves := by
  intro periods torus first second n as inverting
  have htorus : Torus.ofPeriods (periods.map num) = .ok torus :=
    Torus.ofPeriods_eq_ok_iff.mpr ⟨by decide +kernel, rfl⟩
  have hspace : (Space.periodic torus).OfNumbers := by
    rintro _ ⟨⟩
    exact ⟨periods, htorus⟩
  have hfit : (Space.periodic torus).Fits first second := ⟨rfl, rfl⟩
  have hfirst : first.Proper := Box.proper_map [(0, 3), (0, 5)] (by decide +kernel)
  have hsecond : second.Proper := Box.proper_map [(6, 9), (1, 12)] (by decide +kernel)
  have hsuits : (Space.periodic torus).Suits first second := by
    refine ⟨hfirst, hsecond, ?_⟩
    rintro _ ⟨⟩
    decide +kernel
  have hpow : PowMonotone (3 : ℚ) := powMonotone_natCast 3
  obtain ⟨t, ht, hcovered, hcovered'⟩ := coveredByHalves_run (num 0) (.inf false) hspace hfit
    (.inr ⟨3, rfl, hpow⟩)
  obtain ⟨-, rfl⟩ := result_build_eq_ok_iff.mp ht
  have has : (start (.periodic torus) first second n (num 0) (.inf false)).CutsInside as := by
    decide +kernel
  have hinside : ∃ I ∈ ((start (.periodic torus) first second n (num 0) (.inf false)).run
      as).first.axes[0]?, I.lo ≤ num 1 ∧ num 1 ≤ I.hi := by
    decide +kernel
  obtain ⟨lower, upper, hlower, hupper, hleast, hgreatest⟩ :=
    hcovered hsuits as has .first ⟨0, num 1⟩ hinside
  refine ⟨hspace, hfit, hsuits, hpow, _, lower, upper, ht, has, hlower, hupper, hleast, hgreatest, ?_⟩
  have hn : n.KeepsNumbers := Norm.keepsNumbers_ofExponent_iff.mpr
    (.inr (.inr fun s => ⟨s ^ 3, pow_natCast s 3⟩))
  have hcuts : ∀ p : Push (Extended ℚ), p.action ∈ inverting → ∃ v : ℚ, p.cut.value = num v := by
    rintro ⟨side, half, cut⟩ hp
    simp only [inverting, Push.action, List.mem_cons, List.not_mem_nil, Action.push.injEq,
      or_false] at hp
    rcases hp with ⟨-, -, rfl⟩ | ⟨-, -, rfl⟩
    · exact ⟨7, rfl⟩
    · exact ⟨8, rfl⟩
  have hexact := exactShares_run_isNum (shaped_start hfit n (num 0) (.inf false)) rfl
    (Torus.keepsNumbers_ofPeriods htorus) hn hfirst.isNum hsecond.isNum hcuts
  have hfirst' : ((start (.periodic torus) first second n (num 0) (.inf false)).run inverting).first
      = ⟨[⟨num 7, num 8⟩, ⟨num 0, num 5⟩]⟩ := by
    with_unfolding_all rfl
  have hsecond' : ((start (.periodic torus) first second n (num 0) (.inf false)).run inverting).second
      = second := by
    with_unfolding_all rfl
  refine hcovered' inverting (.inr hexact) ⟨?_, ?_, ?_⟩
  · rw [hfirst']
    exact Box.proper_map [(7, 8), (0, 5)] (by decide +kernel)
  · rw [hsecond']
    exact hsecond
  · rintro _ ⟨⟩
    decide +kernel

end Tracker

end MinkowskiBounds
