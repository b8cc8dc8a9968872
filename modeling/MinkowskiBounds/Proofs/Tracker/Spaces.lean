import MinkowskiBounds.Proofs.Torus.Unwrapped
import MinkowskiBounds.Proofs.Tracker.Extremes

/-!
# Trackers in two spaces

A tracker looks at its space only to separate its boxes. As long as two spaces separate the boxes
alike, trackers in them go through the same states (`Tracker.run_inSpace`), whatever the arithmetic.

A torus separates boxes as unbounded space does while nothing wraps between them, and cuts inside
leave no difference that was not there before. So a tracker on a torus is then a tracker in unbounded
space (`Tracker.run_periodic_eq_run_unbounded`).
-/

namespace MinkowskiBounds

open Extended

/-! ## Spaces that separate boxes alike -/

section

variable {α : Type} [Scalar α]

namespace Tracker

variable {t : Tracker α} {space : Space α} {dims : Nat} {side : Side} {half : Half} {cut : Cut α}

/-- The same state in another space. -/
def inSpace (t : Tracker α) (space : Space α) : Tracker α := { t with space }

/-- Another space separates the boxes of the tracker as its own does. -/
def Alternative (t : Tracker α) (space : Space α) : Prop :=
  space.separations t.first t.second = t.separations

omit [Scalar α] in
theorem Shaped.inSpace (h : t.Shaped dims) (hspace : space.checkDims dims = .ok ()) :
    (t.inSpace space).Shaped dims :=
  ⟨h.first, h.second, hspace⟩

/-- A push in either space leads to the same state, if both separate the boxes alike before it and
after it. -/
theorem push_inSpace (hs : t.Shaped dims) (hspace : space.checkDims dims = .ok ())
    (hbefore : t.Alternative space) (hafter : (t.push side half cut).2.Alternative space) :
    ((t.inSpace space).push side half cut).2 = (t.push side half cut).2.inSpace space := by
  by_cases hlt : cut.axis < dims
  · have hbox : (t.inSpace space).box side = t.box side := by
      cases side <;> rfl
    have hnarrow : ((t.inSpace space).narrow side half cut).separations
        = (t.narrow side half cut).separations := by
      obtain ⟨I, bounds, -, hp, -⟩ := push_of_lt hs side half hlt
      rw [hp, Alternative, separations_pushed] at hafter
      rw [← hafter]
      cases side <;> rfl
    obtain ⟨I, bounds, hp, hp'⟩ := exists_pushed_of_alike hs (hs.inSpace hspace) rfl rfl hbox hbefore
      hnarrow hlt
    rw [hp, hp']
    cases side <;> rfl
  · rw [(hs.inSpace hspace).push_of_not_lt side half hlt, hs.push_of_not_lt side half hlt]
    rfl

omit [Scalar α] in
theorem undo_inSpace (t : Tracker α) (space : Space α) :
    (t.inSpace space).undo = t.undo.inSpace space := by
  have hf : (t.inSpace space).stack.frames = t.stack.frames := rfl
  unfold undo
  rw [hf]
  cases t.stack.frames with
  | nil => rfl
  | cons f frames =>
    simp only [restore, mapBox]
    cases f.side with
    | first => rfl
    | second => rfl

/-- An action in either space leads to the same state. -/
theorem tracker_act_inSpace (hs : t.Shaped dims) (hspace : space.checkDims dims = .ok ())
    (hbefore : t.Alternative space) {a : Action α} (hafter : (t.act a).tracker.Alternative space) :
    ((t.inSpace space).act a).tracker = (t.act a).tracker.inSpace space := by
  cases a with
  | push side half cut =>
    rw [tracker_act_push] at hafter ⊢
    exact push_inSpace hs hspace hbefore hafter
  | pop => rw [tracker_act_pop, tracker_act_pop, undo_inSpace]
  | tryPop => rw [tracker_act_tryPop, tracker_act_tryPop, undo_inSpace]

/-- **Trackers in two spaces go through the same states**, as long as both spaces separate the boxes
alike. -/
theorem run_inSpace (hs : t.Shaped dims) (hspace : space.checkDims dims = .ok ())
    {as : List (Action α)} (has : ∀ bs, bs <+: as → (t.run bs).Alternative space) :
    (t.inSpace space).run as = (t.run as).inSpace space := by
  have hrun : (t.inSpace space).run (as.map id) = (t.run as).inSpace space := by
    refine run_map_of_act (f := (·.inSpace space)) fun bs a hbs => ?_
    have hafter := has (bs ++ [a]) hbs
    rw [run_concat] at hafter
    exact tracker_act_inSpace (hs.run bs) hspace (has bs ((List.prefix_append bs [a]).trans hbs))
      hafter
  rwa [List.map_id] at hrun

end Tracker

end

/-! ## A torus on which nothing wraps -/

variable {K : Type} [Field K] [LinearOrder K] [FloorRing K] [Powers K] [IsStrictOrderedRing K]
  {periods : List (Extended K)} {torus : Torus (Extended K)} {first second : Box (Extended K)}
  {p : Extended K}

/-- Boxes in order within half a period of each other have nothing that wraps. -/
theorem Torus.WithinHalf.unwrapped (h : torus.WithinHalf first second)
    (ht : ofPeriods periods = .ok torus) (hfirst : first.Proper) (hsecond : second.Proper) :
    torus.Unwrapped first second := by
  obtain ⟨hpos, rfl⟩ := ofPeriods_eq_ok_iff.mp ht
  intro i I hI c J hc hJ
  have hnear := h (c, I, J) (List.mem_of_getElem?
    (List.getElem?_zip_eq_some.mpr ⟨hc, List.getElem?_zip_eq_some.mpr ⟨hI, hJ⟩⟩))
  obtain ⟨a, b, rfl, hab⟩ := hfirst I (List.mem_of_getElem? hI)
  obtain ⟨c', d, rfl, hcd⟩ := hsecond J (List.mem_of_getElem? hJ)
  obtain ⟨full, hmem, rfl⟩ := List.mem_map.mp (List.mem_of_getElem? hc)
  have hfull := hpos full hmem
  cases full with
  | num full =>
    rw [num_sub, num_sub] at hnear
    have hlo := abs_le.mp (Circle.withinHalf_num_iff.mp hnear.1)
    have hhi := abs_le.mp (Circle.withinHalf_num_iff.mp hnear.2)
    exact .short (num_lt_num.mp hfull) hab hcd hlo.1 hhi.2
  | inf negative => cases negative with
    | false => exact .endless hab hcd
    | true => exact absurd hfull Bool.false_ne_true
  | nan => exact absurd hfull Bool.false_ne_true

namespace Tracker

variable {t : Tracker (Extended K)} {dims : Nat} {as : List (Action (Extended K))}

/-- Cuts inside leave boxes between which nothing wraps. -/
theorem unwrapped_run (hs : t.Shaped dims) (hf : t.stack.frames = [])
    (h : torus.Unwrapped t.first t.second) (has : t.CutsInside as) {bs : List (Action (Extended K))}
    (hbs : bs <+: as) : torus.Unwrapped (t.run bs).first (t.run bs).second :=
  boxes_run_inside hs hf (fun h hcut half => h.narrow_first hcut half)
    (fun h hcut half => h.narrow_second hcut half) h has hbs

/--
**A tracker on a torus is one in unbounded space where nothing wraps.**

Along each axis the period is infinite, or the raw separations of the boxes are at most half of it in
size. Then both trackers are built, and after every run whose pushes cut inside the intervals that
they split they are in the same state but for the space: with the same boxes, bounds and stack. Points
within half a period of each other along each axis are equally far apart in both, whatever the limit.
-/
theorem run_periodic_eq_run_unbounded (ε limit : Extended K)
    (ht : Torus.ofPeriods periods = .ok torus) (hdims : first.dims = torus.dims)
    (hdims' : second.dims = torus.dims) (hfirst : first.Proper) (hsecond : second.Proper)
    (hnear : torus.WithinHalf first second) :
    (∃ t t', (build (.periodic torus) first second (.ofExponent p) ε limit).result = .ok t ∧
      (build .unbounded first second (.ofExponent p) ε limit).result = .ok t' ∧
      ∀ as, t'.CutsInside as → t.run as = { t'.run as with space := .periodic torus }) ∧
    ∀ x y : List K, x.length = torus.dims → y.length = torus.dims →
      torus.PointsWithinHalf (x.map num) (y.map num) → ∀ limit,
      (Space.periodic torus).distance (.ofExponent p) limit (x.map num) (y.map num)
        = Space.unbounded.distance (.ofExponent p) limit (x.map num) (y.map num) := by
  have hdims_eq : first.dims = second.dims := hdims.trans hdims'.symm
  have hfit : Space.unbounded.Fits first second := ⟨hdims_eq, rfl⟩
  have hchecked : (Space.periodic torus).checkDims first.dims = .ok () := by
    rw [Space.checkDims_eq_ok_iff]
    rintro _ ⟨⟩
    exact hdims.symm
  have hunwrapped := hnear.unwrapped ht hfirst hsecond
  have hs := shaped_start hfit (.ofExponent p) ε limit
  have hstart : start (.periodic torus) first second (.ofExponent p) ε limit
      = (start .unbounded first second (.ofExponent p) ε limit).inSpace (.periodic torus) := by
    rw [start, Space.separations_periodic_eq ⟨hdims_eq, hchecked⟩ hunwrapped]
    rfl
  refine ⟨⟨_, _, result_build_eq_ok_iff.mpr ⟨⟨hdims_eq, hchecked⟩, rfl⟩,
    result_build_eq_ok_iff.mpr ⟨hfit, rfl⟩, ?_⟩, ?_⟩
  · intro as has
    rw [hstart]
    refine run_inSpace hs hchecked ?_
    intro bs hbs
    have hs' := hs.run bs
    rw [Alternative, separations, (space_norm_run hs rfl bs).1]
    refine Space.separations_periodic_eq ⟨hs'.first.trans hs'.second.symm, ?_⟩
      (unwrapped_run hs rfl hunwrapped has hbs)
    rw [hs'.first]
    exact hchecked
  · intro x y hx hy hxy limit
    exact Space.distance_periodic_eq_unbounded ht hx hy hxy (.ofExponent p) limit

/-- A circle cut at exactly half a period beside one of infinite period, with cubes; and two points
half a period apart. -/
theorem run_periodic_eq_run_unbounded_cubes :
    let periods : List (Extended ℚ) := [num 10, inf false]
    let torus : Torus (Extended ℚ) := ⟨periods.map .ofPeriod⟩
    let first : Box (Extended ℚ) := ⟨[⟨num 0, num 4⟩, ⟨num 0, num 50⟩]⟩
    let second : Box (Extended ℚ) := ⟨[⟨num 3, num 5⟩, ⟨num 70, num 90⟩]⟩
    let n : Norm (Extended ℚ) := .ofExponent (num 3)
    let as : List (Action (Extended ℚ)) :=
      [.push .first .lower ⟨0, num 0⟩, .push .second .upper ⟨0, num 5⟩, .pop,
        .push .second .lower ⟨1, num 80⟩]
    let x : List ℚ := [1, 5]
    let y : List ℚ := [6, 80]
    Torus.ofPeriods periods = .ok torus ∧ first.Proper ∧ second.Proper ∧
    torus.WithinHalf first second ∧ torus.PointsWithinHalf (x.map num) (y.map num) ∧
    (∃ t t', (build (.periodic torus) first second n (num 0) (num 9)).result = .ok t ∧
      (build .unbounded first second n (num 0) (num 9)).result = .ok t' ∧ t'.CutsInside as ∧
      t.run as = { t'.run as with space := .periodic torus }) ∧
    (Space.periodic torus).distance n (num 9) (x.map num) (y.map num)
      = Space.unbounded.distance n (num 9) (x.map num) (y.map num) := by
  intro periods torus first second n as x y
  have htorus : Torus.ofPeriods periods = .ok torus :=
    Torus.ofPeriods_eq_ok_iff.mpr ⟨by decide +kernel, rfl⟩
  have hfirst : first.Proper := Box.proper_map [(0, 4), (0, 50)] (by decide +kernel)
  have hsecond : second.Proper := Box.proper_map [(3, 5), (70, 90)] (by decide +kernel)
  have hnear : torus.WithinHalf first second := by
    decide +kernel
  have hpoints : torus.PointsWithinHalf (x.map num) (y.map num) := by
    decide +kernel
  obtain ⟨⟨t, t', ht, ht', hrun⟩, hdistance⟩ := run_periodic_eq_run_unbounded (p := num 3) (num 0)
    (num 9) htorus (show first.dims = torus.dims from rfl) (show second.dims = torus.dims from rfl)
    hfirst hsecond hnear
  have has : t'.CutsInside as := by
    obtain ⟨-, rfl⟩ := result_build_eq_ok_iff.mp ht'
    decide +kernel
  exact ⟨htorus, hfirst, hsecond, hnear, hpoints, ⟨t, t', ht, ht', has, hrun as has⟩,
    hdistance x y rfl rfl hpoints (num 9)⟩

end Tracker

end MinkowskiBounds
