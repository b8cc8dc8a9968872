import MinkowskiBounds.Proofs.Space.Cells
import MinkowskiBounds.Proofs.Tracker.Taken

/-!
# Trackers for endless boxes

A new tracker for endless boxes has bounds that are defined: a least distance that is a number, and a
greatest that is one or infinite. A push takes out of them what its axis contributes. Where one of the
boxes is endless along that axis, this is infinity out of infinity: the greatest bound is undefined
from then on, although a new tracker would have a defined one (`Tracker.bounds_run_cells`).

Pops put the old bounds back, so that it is the pending pushes that matter. The induction is over
them, and goes by the axes along which the boxes were endless to begin with: an axis not pushed along
is as endless as it was.
-/

namespace MinkowskiBounds

open Extended

variable {K : Type} [Field K] [LinearOrder K] [FloorRing K] [Powers K]

/-! ## Cuts at numbers -/

omit [Field K] [LinearOrder K] [FloorRing K] [Powers K] in
theorem Box.IsCell.narrow {b : Box (Extended K)} (h : b.IsCell) {half : Half}
    {cut : Cut (Extended K)} (hcut : ∃ v : K, cut.value = num v) : (b.narrow half cut).IsCell := by
  refine forall_mem_narrow h ?_
  intro I hI
  have hcell := h I (List.mem_of_getElem? hI)
  cases half with
  | lower => exact ⟨hcell.1, .inr hcut⟩
  | upper => exact ⟨.inr hcut, hcell.2⟩

omit [Field K] [LinearOrder K] [FloorRing K] [Powers K] in
/-- An axis that is not endless does not become so. -/
theorem Box.forall_isNum_narrow {b : Box (Extended K)} {i : Nat} (h : ∀ I ∈ b.axes[i]?, I.IsNum)
    {half : Half} {cut : Cut (Extended K)} (hcut : ∃ v : K, cut.value = num v) :
    ∀ I ∈ (b.narrow half cut).axes[i]?, I.IsNum := fun I hI =>
  forall_getElem?_narrow (P := fun j J => j = i → J.IsNum) (fun _ J hJ hj => h J (hj ▸ hJ))
    (fun J hJ hj => (h J (hj ▸ hJ)).part hcut half) i I hI rfl

namespace Tracker

variable {t t' : Tracker (Extended K)} {dims : Nat} {ps : List (Push (Extended K))}

/-- A push along an axis of the boxes, at a number. -/
def CutsAtNumber (dims : Nat) (p : Push (Extended K)) : Prop :=
  p.cut.axis < dims ∧ ∃ v : K, p.cut.value = num v

/-- What the narrowing of a box preserves, pushes do. -/
theorem box_run_pushes (hs : t.Shaped dims) (hps : ∀ p ∈ ps, CutsAtNumber dims p)
    {P : Box (Extended K) → Prop}
    (hP : ∀ (b : Box (Extended K)), ∀ p ∈ ps, P b → P (b.narrow p.half p.cut)) (side : Side)
    (h : P (t.box side)) : P ((t.run (ps.map Push.action)).box side) := by
  induction ps generalizing t with
  | nil => exact h
  | cons p ps ih =>
    rw [List.map_cons, run_cons]
    refine ih (hs.act p.action) (fun q hq => hps q (List.mem_cons_of_mem p hq))
      (fun b q hq => hP b q (List.mem_cons_of_mem p hq)) ?_
    rw [box_act_push hs (hps p List.mem_cons_self).1]
    split
    · exact hP _ p List.mem_cons_self h
    · exact h

theorem isCell_run_pushes (hs : t.Shaped dims) (hps : ∀ p ∈ ps, CutsAtNumber dims p) (side : Side)
    (h : (t.box side).IsCell) : ((t.run (ps.map Push.action)).box side).IsCell :=
  box_run_pushes hs hps (fun _ p hp hb => hb.narrow (hps p hp).2) side h

/-- Axes that are not endless do not become so. -/
theorem closedAlong_run_pushes (hs : t.Shaped dims) (hps : ∀ p ∈ ps, CutsAtNumber dims p)
    {axis : Nat} (h : t.first.ClosedAlong t.second axis) :
    (t.run (ps.map Push.action)).first.ClosedAlong (t.run (ps.map Push.action)).second axis :=
  have hkeep := box_run_pushes hs hps (P := fun b => ∀ I ∈ b.axes[axis]?, I.IsNum)
    fun _ p hp hb => Box.forall_isNum_narrow hb (hps p hp).2
  ⟨hkeep .first h.1, hkeep .second h.2⟩

/-- An axis that no push is along stays as endless as it was. -/
theorem closedAlong_run_pushes_iff (hs : t.Shaped dims) (hps : ∀ p ∈ ps, CutsAtNumber dims p)
    {axis : Nat} (h : ∀ p ∈ ps, p.cut.axis ≠ axis) :
    (t.run (ps.map Push.action)).first.ClosedAlong (t.run (ps.map Push.action)).second axis ↔
      t.first.ClosedAlong t.second axis := by
  have hkeep : ∀ side, ((t.run (ps.map Push.action)).box side).axes[axis]?
      = (t.box side).axes[axis]? := fun side =>
    box_run_pushes hs hps (P := fun b => b.axes[axis]? = (t.box side).axes[axis]?)
      (fun b p hp hb => (List.getElem?_modify_ne _ b.axes (h p hp)).trans hb) side rfl
  have hfirst : (t.run (ps.map Push.action)).first.axes[axis]? = t.first.axes[axis]? := hkeep .first
  have hsecond : (t.run (ps.map Push.action)).second.axes[axis]? = t.second.axes[axis]? :=
    hkeep .second
  rw [Box.ClosedAlong, Box.ClosedAlong, hfirst, hsecond]

/-! ## What pushes take out -/

/-- The measured bounds of cells are a number, and one with a top. -/
theorem exists_measured_cell (hspace : t.space = .unbounded) (hn : t.norm.IsElementary)
    (hfirst : t.first.IsCell) (hsecond : t.second.IsCell) :
    ∃ r : K × WithTop K, t.measured = .ofTop r := by
  obtain ⟨rs, hrs⟩ : t.separations.map (·.map t.norm.term) ∈ Set.range (List.map Bounds.ofTop) := by
    rw [Set.range_list_map]
    intro b hb
    obtain ⟨s, hs, rfl⟩ := List.mem_map.mp hb
    obtain ⟨i, hi⟩ := List.mem_iff_getElem?.mp hs
    rw [separations, hspace] at hi
    obtain ⟨r, hr, -⟩ := Space.exists_share_cell hn hfirst hsecond hi
    exact ⟨r, hr.symm⟩
  exact ⟨rs.sum, by rw [measured_eq_sum hn.ne_chebyshev, ← hrs, Bounds.foldl_ofTop]⟩

/-- **What cells contribute along an axis** is a number in the least bound, and one in the greatest
exactly if neither of them is endless along it. -/
theorem share_cell (hs : t.Shaped dims) (hspace : t.space = .unbounded) (hn : t.norm.IsElementary)
    (hfirst : t.first.IsCell) (hsecond : t.second.IsCell) {axis : Nat} (hlt : axis < dims)
    {taken : Bounds (Extended K)} (h : t.share axis = .ok taken) :
    taken.least.isNum ∧ (taken.greatest.isNum ↔ t.first.ClosedAlong t.second axis) := by
  obtain ⟨s, hsep⟩ := exists_separation hs hlt
  obtain rfl : s.map t.norm.term = taken :=
    Except.ok.inj ((Space.axisBounds_of_getElem? hsep).symm.trans h)
  rw [separations, hspace] at hsep
  obtain ⟨r, hr, hclosed⟩ := Space.exists_share_cell hn hfirst hsecond hsep
  rw [hr]
  exact ⟨rfl, (isNum_ofTop_iff r.2).trans hclosed⟩

/-- **Pushes take numbers out of the least bound**, and out of the greatest as long as they are along
axes along which the boxes are not endless to begin with. -/
theorem takenOut_cells (hs : t.Shaped dims) (hspace : t.space = .unbounded)
    (hn : t.norm.IsElementary) (hfirst : t.first.IsCell) (hsecond : t.second.IsCell)
    (hps : ∀ p ∈ ps, CutsAtNumber dims p) :
    ((t.takenOut ps).all fun taken => taken.least.isNum) ∧
      (((t.takenOut ps).all fun taken => taken.greatest.isNum) ↔
        ∀ p ∈ ps, t.first.ClosedAlong t.second p.cut.axis) := by
  induction ps generalizing t with
  | nil => exact ⟨rfl, iff_of_true rfl nofun⟩
  | cons p ps ih =>
    have hp : ∀ q ∈ [p], CutsAtNumber dims q := fun q hq =>
      List.mem_singleton.mp hq ▸ hps p List.mem_cons_self
    have hlt : p.cut.axis < dims := (hps p List.mem_cons_self).1
    obtain ⟨hspace', hn'⟩ := space_norm_act hs hlt
    obtain ⟨taken, hshare, -⟩ := bound_act_push hs hn.ne_chebyshev List.mem_cons_self hlt
    obtain ⟨hleast, hgreatest⟩ := share_cell hs hspace hn hfirst hsecond hlt hshare
    obtain ⟨hleasts, hgreatests⟩ := ih (hs.act p.action) (hspace'.trans hspace) (hn' ▸ hn)
      (isCell_run_pushes hs hp .first hfirst) (isCell_run_pushes hs hp .second hsecond)
      fun q hq => hps q (List.mem_cons_of_mem p hq)
    rw [takenOut, hshare, List.all_cons, List.all_cons, Bool.and_eq_true, Bool.and_eq_true,
      hgreatest, hgreatests, List.forall_mem_cons]
    refine ⟨⟨hleast, hleasts⟩, and_congr_right fun hclosed => forall₂_congr fun q _ => ?_⟩
    -- the axis of the push is not endless, and others are as endless after it as before
    by_cases haxis : q.cut.axis = p.cut.axis
    · rw [haxis]
      exact iff_of_true (closedAlong_run_pushes hs hp hclosed) hclosed
    · exact closedAlong_run_pushes_iff hs hp fun r hr h =>
        haxis (h.symm.trans (congrArg (·.cut.axis) (List.mem_singleton.mp hr)))

/-! ## Runs of new trackers -/

variable [IsStrictOrderedRing K] {first second : Box (Extended K)} {p : Extended K}

/--
**A push along an endless axis leaves the greatest bound undefined**, and no other does.

The boxes are numbers or endless along each axis, and are cut at numbers. With exponent one or two
trackers for them are built, at first and after every run, with bounds that are defined. The run leaves
the least bound at what the new tracker holds. It leaves the greatest there too if no pending push is
along an axis along which one of the first boxes is endless; otherwise it leaves it undefined.
-/
theorem bounds_run_cells (ε limit : Extended K) (hdims : first.dims = second.dims)
    (hfirst : first.IsCell) (hsecond : second.IsCell) (hp : p = 1 ∨ p = Scalar.two) :
    ∃ t, (build .unbounded first second (.ofExponent p) ε limit).result = .ok t ∧
      ∀ as : List (Action (Extended K)),
        (∀ q : Push (Extended K), q.action ∈ as → ∃ v : K, q.cut.value = num v) →
        ∃ new, (build .unbounded (t.run as).first (t.run as).second (.ofExponent p) ε limit).result
            = .ok new ∧
          new.bounds.least ≠ nan ∧ new.bounds.greatest ≠ nan ∧
          (t.run as).bounds.least = new.bounds.least ∧
          ((∀ q ∈ pending first.dims as, first.ClosedAlong second q.cut.axis) →
            (t.run as).bounds.greatest = new.bounds.greatest) ∧
          ((∃ q ∈ pending first.dims as, ¬ first.ClosedAlong second q.cut.axis) →
            (t.run as).bounds.greatest = nan) := by
  have hfit : Space.unbounded.Fits first second := ⟨hdims, rfl⟩
  have hn : (Norm.ofExponent p).IsElementary := by
    rcases hp with rfl | rfl
    · exact .inr Norm.ofExponent_one
    · exact .inl Norm.ofExponent_two
  have hs := shaped_start hfit (.ofExponent p) ε limit
  refine ⟨_, result_build_eq_ok_iff.mpr ⟨hfit, rfl⟩, ?_⟩
  intro as has
  have hps : ∀ q ∈ pending first.dims as, CutsAtNumber first.dims q := fun q hq =>
    ⟨axis_lt_of_mem_pending as q hq, has q (action_mem_of_mem_pending as q hq)⟩
  obtain ⟨hleasts, hgreatests⟩ := takenOut_cells hs rfl hn hfirst hsecond hps
  have hleast := (bound_run_pushes hs hn.ne_chebyshev List.mem_cons_self
    (axis_lt_of_mem_pending as)).1 rfl
  have hgreatest := (bound_run_pushes hs hn.ne_chebyshev
    (List.mem_cons_of_mem _ List.mem_cons_self) (axis_lt_of_mem_pending as)).1 rfl
  -- the run ends where its pending pushes lead
  obtain ⟨c, hc⟩ := uncapped_eq_iff.mp (uncapped_run hs rfl as)
  rw [hc]
  have hs' := hs.run ((pending first.dims as).map Push.action)
  obtain ⟨hspace, hnorm⟩ := space_norm_run hs rfl ((pending first.dims as).map Push.action)
  obtain ⟨r, hmeasured⟩ := exists_measured_cell hspace (hnorm ▸ hn)
    (isCell_run_pushes hs hps .first hfirst) (isCell_run_pushes hs hps .second hsecond)
  obtain ⟨new, hnew, hbounds⟩ := exists_build_measured hs' ε limit
  rw [hspace, hnorm] at hnew
  refine ⟨new, hnew, ?_, ?_, ?_, ?_, ?_⟩
  · rw [hbounds, hmeasured]
    nofun
  · rw [hbounds, hmeasured]
    exact ofTop_ne_nan r.2
  · rw [hbounds]
    exact hleast.trans (if_pos hleasts)
  · intro hclosed
    rw [hbounds]
    exact hgreatest.trans (if_pos (hgreatests.mpr hclosed))
  · rintro ⟨q, hq, hopen⟩
    exact hgreatest.trans (if_neg fun hall => hopen (hgreatests.mp hall q hq))

/-- An endless box beside one that is endless upwards, with squares: after a push along the closed
axis both bounds are those of a new tracker, and after another along the endless axis the greatest is
undefined. -/
theorem bounds_run_cells_squares :
    let first : Box (Extended ℚ) := ⟨[⟨inf true, inf false⟩, ⟨num 0, num 4⟩]⟩
    let second : Box (Extended ℚ) := ⟨[⟨num 3, inf false⟩, ⟨num 6, num 7⟩]⟩
    let n : Norm (Extended ℚ) := .ofExponent Scalar.two
    let closed : Push (Extended ℚ) := ⟨.first, .lower, ⟨1, num 2⟩⟩
    let endless : Push (Extended ℚ) := ⟨.first, .lower, ⟨0, num 1⟩⟩
    first.IsCell ∧ second.IsCell ∧
    ∃ t, (build .unbounded first second n (num 0) (inf false)).result = .ok t ∧
      (∃ new, (build .unbounded (t.run [closed.action]).first (t.run [closed.action]).second n (num 0)
          (inf false)).result = .ok new ∧ (t.run [closed.action]).bounds.least = new.bounds.least ∧
        (t.run [closed.action]).bounds.greatest = new.bounds.greatest) ∧
      (t.run [closed.action, endless.action]).bounds.greatest = nan := by
  intro first second n closed endless
  have hfirst : first.IsCell := by
    simp [first, Box.IsCell, Interval.IsCell]
  have hsecond : second.IsCell := by
    simp [second, Box.IsCell, Interval.IsCell]
  obtain ⟨t, ht, hrun⟩ := bounds_run_cells (num 0) (inf false)
    (show first.dims = second.dims from rfl) hfirst hsecond (.inr rfl)
  refine ⟨hfirst, hsecond, t, ht, ?_, ?_⟩
  · obtain ⟨new, hnew, -, -, hleast, hgreatest, -⟩ := hrun [closed.action] (by
      rintro ⟨side, half, cut⟩ hq
      cases List.mem_singleton.mp hq
      exact ⟨2, rfl⟩)
    refine ⟨new, hnew, hleast, hgreatest ?_⟩
    intro q hq
    obtain rfl : q = closed := List.mem_singleton.mp hq
    exact ⟨by simp [first, closed, Interval.IsNum], by simp [second, closed, Interval.IsNum]⟩
  · obtain ⟨new, -, -, -, -, -, hundefined⟩ := hrun [closed.action, endless.action] (by
      rintro ⟨side, half, cut⟩ hq
      simp only [closed, endless, Push.action, List.mem_cons, List.not_mem_nil, Action.push.injEq,
        or_false] at hq
      rcases hq with ⟨-, -, rfl⟩ | ⟨-, -, rfl⟩
      · exact ⟨2, rfl⟩
      · exact ⟨1, rfl⟩)
    have hmem : endless ∈ [closed, endless] := List.mem_cons_of_mem closed List.mem_cons_self
    refine hundefined ⟨endless, hmem, ?_⟩
    rintro ⟨h, -⟩
    obtain ⟨lo, hi, h⟩ := h _ rfl
    cases h

/-- An endless interval beside one from zero to one, cut to two and then to one below zero: the
greatest bound is undefined from the first cut on, where new trackers hold infinity and then two. -/
theorem undefined_after_one_push :
    let first : Box (Extended ℚ) := ⟨[⟨inf true, inf false⟩]⟩
    let second : Box (Extended ℚ) := ⟨[⟨num 0, num 1⟩]⟩
    let n : Norm (Extended ℚ) := .ofExponent 1
    let cut : Action (Extended ℚ) := .push .first .lower ⟨0, num 2⟩
    let next : Action (Extended ℚ) := .push .first .upper ⟨0, num (-1)⟩
    let new (t : Tracker (Extended ℚ)) := start .unbounded t.first t.second n (num 0) (inf false)
    ∃ t, (build .unbounded first second n (num 0) (inf false)).result = .ok t ∧
      t.bounds.greatest = inf false ∧ t.CutsInside [cut, next] ∧
      (t.run [cut]).bounds.greatest = nan ∧ (new (t.run [cut])).bounds.greatest = inf false ∧
      (t.run [cut, next]).bounds.greatest = nan ∧
      (new (t.run [cut, next])).bounds.greatest = num 2 := by
  intro first second n cut next new
  refine ⟨_, result_build_eq_ok_iff.mpr ⟨⟨rfl, rfl⟩, rfl⟩, ?_⟩
  decide +kernel

end Tracker

end MinkowskiBounds
