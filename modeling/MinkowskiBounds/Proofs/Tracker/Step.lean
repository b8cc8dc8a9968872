import MinkowskiBounds.Proofs.Space.Axes
import MinkowskiBounds.Tracker.Run

/-!
# What one action does

A tracker keeps its *shape*: both boxes have as many axes as each other, and the space can measure
them. In that shape everything a push looks up is there, so that it fails exactly along an axis that
the boxes lack. No law of the arithmetic is used.

* `Tracker.result_build_eq_ok_iff` — when a tracker is built, and which
* `Tracker.push_of_lt` — everything that a push along an axis of the boxes does
* `Tracker.Shaped.run` — runs keep the shape
-/

namespace MinkowskiBounds

variable {α : Type} [Scalar α] {space : Space α} {n : Norm α} {first second : Box α} {ε limit : α}

namespace Tracker

variable {t t' : Tracker α} {dims : Nat} {side : Side} {half : Half} {cut : Cut α}

/-- The separations of the two boxes, as narrowed so far. -/
def separations (t : Tracker α) : List (Bounds α) := t.space.separations t.first t.second

/-- The bounds of the two boxes over all axes. -/
def measured (t : Tracker α) : Bounds α := t.separations.foldl t.norm.join .zero

/-- Both boxes have `dims` axes, and the space can measure such boxes. -/
structure Shaped (t : Tracker α) (dims : Nat) : Prop where
  first : t.first.dims = dims
  second : t.second.dims = dims
  checked : t.space.checkDims dims = .ok ()

omit [Scalar α] in
theorem Shaped.fits (h : t.Shaped dims) : t.space.Fits t.first t.second :=
  ⟨h.first.trans h.second.symm, by rw [h.first]; exact h.checked⟩

omit [Scalar α] in
theorem Shaped.dims_box (h : t.Shaped dims) (side : Side) : (t.box side).dims = dims := by
  cases side with
  | first => exact h.first
  | second => exact h.second

/-! ## Building -/

/-- The tracker that is built for two boxes. -/
def start (space : Space α) (first second : Box α) (n : Norm α) (ε limit : α) : Tracker α where
  space := space
  norm := n
  factor := n.tolerance ε
  limit := n.raise limit
  first := first
  second := second
  bounds := (space.separations first second).foldl n.join .zero
  stack := .empty

/-- **A tracker is built exactly when the space can measure the boxes.** -/
theorem result_build_eq_ok_iff : (build space first second n ε limit).result = .ok t ↔
    space.Fits first second ∧ t = start space first second n ε limit := by
  by_cases hd : first.dims = second.dims
  · cases hc : space.checkDims first.dims with
    | error cause =>
      have hfail : (build space first second n ε limit).result = .error cause := by
        simp [build, checkPair, hd, hd ▸ hc]
      rw [hfail]
      constructor
      · intro h
        cases h
      · rintro ⟨hfit, -⟩
        rw [hfit.checked] at hc
        cases hc
    | ok u =>
      have hfit : space.Fits first second := ⟨hd, hc⟩
      have hok : (build space first second n ε limit).result
          = .ok (start space first second n ε limit) := by
        simp only [build, checkPair, ne_eq, hd, not_true_eq_false, if_false, hd ▸ hc, Space.bounds_eq hfit]
        rfl
      rw [hok, Except.ok.injEq]
      exact ⟨fun h => ⟨hfit, h.symm⟩, fun h => h.2.symm⟩
  · have hfail : (build space first second n ε limit).result
        = .error (.dimensionMismatch first.dims second.dims) := by
      simp [build, checkPair, hd]
    rw [hfail]
    constructor
    · intro h
      cases h
    · rintro ⟨hfit, -⟩
      exact absurd hfit.dims_eq hd

theorem shaped_start (h : space.Fits first second) (n : Norm α) (ε limit : α) :
    (start space first second n ε limit).Shaped first.dims :=
  ⟨rfl, h.dims_eq.symm, h.checked⟩

/-- A new tracker for the boxes as narrowed so far holds their measured bounds. -/
theorem exists_build_measured (h : t.Shaped dims) (ε limit : α) :
    ∃ new, (build t.space t.first t.second t.norm ε limit).result = .ok new ∧
      new.bounds = t.measured :=
  ⟨_, result_build_eq_ok_iff.mpr ⟨h.fits, rfl⟩, rfl⟩

/-! ## Pushing -/

omit [Scalar α] in
theorem Shaped.narrow (h : t.Shaped dims) (side : Side) (half : Half) (cut : Cut α) :
    (t.narrow side half cut).Shaped dims := by
  cases side with
  | first => exact ⟨(Box.dims_narrow ..).trans h.first, h.second, h.checked⟩
  | second => exact ⟨h.first, (Box.dims_narrow ..).trans h.second, h.checked⟩

theorem exists_separation (h : t.Shaped dims) {axis : Nat} (hlt : axis < dims) :
    ∃ s, t.separations[axis]? = some s := by
  have hlen : t.separations.length = dims := (Space.length_separations h.fits).trans h.first
  exact ⟨_, List.getElem?_eq_getElem (hlen ▸ hlt)⟩

/-- The state after a push that found `I` along its axis and came to `bounds`. -/
def pushed (t : Tracker α) (side : Side) (half : Half) (cut : Cut α) (I : Interval α)
    (bounds : Bounds α) : Tracker α :=
  { (t.reserve.save side cut.axis I).narrow side half cut with bounds }

/--
**A push along an axis of the boxes comes out well.**

It saves the interval along the axis and the bounds, narrows the box, and then holds the bounds of
all axes measured again, or the old ones with the contribution of the axis exchanged.
-/
theorem push_of_lt (hs : t.Shaped dims) (side : Side) (half : Half) (h : cut.axis < dims) :
    ∃ I bounds,
    (t.box side).interval cut.axis = .ok I ∧
    t.push side half cut = (.ok (), t.pushed side half cut I bounds) ∧
    (t.norm = .chebyshev → bounds = (t.narrow side half cut).measured) ∧
    (t.norm ≠ .chebyshev → ∃ before after, t.separations[cut.axis]? = some before ∧
      (t.narrow side half cut).separations[cut.axis]? = some after ∧
      bounds = t.bounds - before.map t.norm.term + after.map t.norm.term) := by
  obtain ⟨I, hI⟩ := Box.exists_interval (hs.dims_box side ▸ h)
  have hs' := hs.narrow side half cut
  have hspace : (t.narrow side half cut).space = t.space := by cases side <;> rfl
  have hnorm : (t.narrow side half cut).norm = t.norm := by cases side <;> rfl
  by_cases hn : t.norm = .chebyshev
  · have hb := Space.bounds_eq (n := t.norm) hs'.fits
    rw [hspace, hn] at hb
    have hp := push_of_chebyshev hn hI hb
    refine ⟨I, _, hI, hp, ?_, fun hn' => absurd hn hn'⟩
    intro _
    rw [measured, separations, hspace, hnorm, hn]
  · obtain ⟨before, hbefore⟩ := exists_separation hs h
    obtain ⟨after, hafter⟩ := exists_separation hs' h
    have hb : t.share cut.axis = .ok (before.map t.norm.term) :=
      Space.axisBounds_of_getElem? hbefore
    have ha : (t.narrow side half cut).share cut.axis = .ok (after.map t.norm.term) := by
      rw [share, hnorm]
      exact Space.axisBounds_of_getElem? hafter
    refine ⟨I, _, hI, push_of_ne_chebyshev hn hI hb ha, fun hn' => absurd hn' hn, ?_⟩
    intro _
    exact ⟨before, after, hbefore, hafter, rfl⟩

/-- A push along any other axis fails, and only makes room on the stack. -/
theorem Shaped.push_of_not_lt (hs : t.Shaped dims) (side : Side) (half : Half)
    (h : ¬ cut.axis < dims) :
    t.push side half cut = (.error (.indexOutOfRange dims cut.axis), t.reserve) := by
  rw [push_of_ge (by rw [hs.dims_box side]; omega), hs.dims_box side]

/-- **In a shaped tracker a push fails exactly along an axis that the boxes lack.** -/
theorem exists_push_iff (hs : t.Shaped dims) (side : Side) (half : Half) (cut : Cut α) :
    (∃ t', t.push side half cut = (.ok (), t')) ↔ cut.axis < dims := by
  constructor
  · rintro ⟨t', h⟩
    by_contra hge
    rw [hs.push_of_not_lt side half hge] at h
    cases h
  · intro h
    obtain ⟨I, bounds, -, hp, -⟩ := push_of_lt hs side half h
    exact ⟨_, hp⟩

/-- Everything that a push which came out well has done. -/
theorem exists_of_push (hs : t.Shaped dims) (h : t.push side half cut = (.ok (), t')) :
    ∃ I bounds, t' = t.pushed side half cut I bounds ∧
    (t.norm = .chebyshev → bounds = (t.narrow side half cut).measured) ∧
    (t.norm ≠ .chebyshev → ∃ before after, t.separations[cut.axis]? = some before ∧
      (t.narrow side half cut).separations[cut.axis]? = some after ∧
      bounds = t.bounds - before.map t.norm.term + after.map t.norm.term) := by
  have hlt : cut.axis < dims := (exists_push_iff hs side half cut).mp ⟨t', h⟩
  obtain ⟨I, bounds, -, hp, hmeasure, hcorrect⟩ := push_of_lt hs side half hlt
  exact ⟨I, bounds, congrArg Prod.snd (h.symm.trans hp), hmeasure, hcorrect⟩

theorem boxes_of_push (hs : t.Shaped dims) (h : t.push side half cut = (.ok (), t')) :
    t'.first = (t.narrow side half cut).first ∧ t'.second = (t.narrow side half cut).second := by
  obtain ⟨I, bounds, rfl, -⟩ := exists_of_push hs h
  cases side with
  | first => exact ⟨rfl, rfl⟩
  | second => exact ⟨rfl, rfl⟩

/-! ## Actions and runs -/

/-- The state after the latest push is undone; without one, the state as it is. -/
def undo (t : Tracker α) : Tracker α :=
  match t.stack.frames with
  | [] => t
  | f :: frames => { t with stack := { t.stack with frames } }.restore f

theorem tracker_act_push (t : Tracker α) (side : Side) (half : Half) (cut : Cut α) :
    (t.act (.push side half cut)).tracker = (t.push side half cut).2 := rfl

theorem tracker_act_tryPop (t : Tracker α) : (t.act .tryPop).tracker = t.undo := by
  unfold act settle tryPop undo
  cases t.stack.frames with
  | nil => rfl
  | cons f frames => rfl

theorem tracker_act_pop (t : Tracker α) : (t.act .pop).tracker = t.undo := by
  unfold act settle pop tryPop undo
  cases t.stack.frames with
  | nil => rfl
  | cons f frames => rfl

/-- Undoing a push gives back the state before, with the room that the push made. -/
theorem undo_of_push (h : t.push side half cut = (.ok (), t')) : t'.undo = t.reserve := by
  have hu := tracker_act_tryPop t'
  rw [act, tryPop_of_push h] at hu
  exact hu.symm

omit [Scalar α] in
theorem Shaped.undo (h : t.Shaped dims) : t.undo.Shaped dims := by
  unfold Tracker.undo
  split
  · exact h
  · next f frames _ =>
    cases hside : f.side with
    | first =>
      simp only [restore, mapBox, hside]
      exact ⟨(Box.dims_setInterval ..).trans h.first, h.second, h.checked⟩
    | second =>
      simp only [restore, mapBox, hside]
      exact ⟨h.first, (Box.dims_setInterval ..).trans h.second, h.checked⟩

theorem Shaped.act (h : t.Shaped dims) (a : Action α) : (t.act a).tracker.Shaped dims := by
  cases a with
  | push side half cut =>
    rw [tracker_act_push]
    by_cases hlt : cut.axis < dims
    · obtain ⟨I, bounds, -, hp, -⟩ := push_of_lt h side half hlt
      have hs := h.narrow side half cut
      rw [hp]
      cases side with
      | first => exact ⟨hs.first, hs.second, hs.checked⟩
      | second => exact ⟨hs.first, hs.second, hs.checked⟩
    · rw [h.push_of_not_lt side half hlt]
      exact ⟨h.first, h.second, h.checked⟩
  | pop => rw [tracker_act_pop]; exact h.undo
  | tryPop => rw [tracker_act_tryPop]; exact h.undo

/-- Runs keep the shape. -/
theorem Shaped.run (h : t.Shaped dims) (as : List (Action α)) : (t.run as).Shaped dims := by
  induction as generalizing t with
  | nil => exact h
  | cons a as ih => exact ih (h.act a)

end Tracker

end MinkowskiBounds
