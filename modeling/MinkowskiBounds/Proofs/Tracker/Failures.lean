import MinkowskiBounds.Proofs.Tracker.Families

/-!
# What can fail, and what a failure leaves

A tracker is refused for boxes that do not fit each other or the space, with the numbers of axes in
question. Once it is built, only two things fail: a push along an axis that the boxes lack, which has
made room on the stack by then and nothing else, and going back with nothing to undo, which changes
nothing (`Tracker.Guarded`).

This rests on the shape that building establishes and every action and fork keeps: both boxes and the
space have equally many axes. Distances need no shape, since what they look up is bounded by the
points themselves and by the axes of the space (`Space.exists_difference`).
-/

namespace MinkowskiBounds

variable {α : Type} [Scalar α]

/-! ## The coordinates that a distance looks up -/

namespace Space

omit [Scalar α] in
/-- The coordinate of a point along an axis. -/
def coordinate (x : List α) (axis : Nat) : Except Failure α :=
  match x[axis]? with
  | some a => .ok a
  | none => .error (.indexOutOfRange x.length axis)

/-- The difference of two points along an axis, with all look-ups that it takes. -/
def difference (space : Space α) (x y : List α) (axis : Nat) : Except Failure α := do
  let a ← coordinate x axis
  let b ← coordinate y axis
  match space with
  | .unbounded => return a - b
  | .periodic torus => return (← torus.circle axis).wrap (a - b)

/-- The number of axes along which two points are compared. -/
def common : Space α → List α → List α → Nat
  | .unbounded, x, y => min x.length y.length
  | .periodic torus, x, y => min (min x.length y.length) torus.dims

theorem length_differences (space : Space α) (x y : List α) :
    (space.differences x y).length = space.common x y := by
  cases space with
  | unbounded => simp [differences, common]
  | periodic torus => simp [differences, common, Torus.dims]

omit [Scalar α] in
theorem exists_coordinate {x : List α} {axis : Nat} (h : axis < x.length) :
    ∃ a, coordinate x axis = .ok a ∧ x[axis]? = some a := by
  have ha := List.getElem?_eq_getElem h
  exact ⟨_, by rw [coordinate, ha], ha⟩

/-- **Along every axis that two points are compared along, all look-ups come out well.** -/
theorem exists_difference {space : Space α} {x y : List α} {axis : Nat}
    (h : axis < space.common x y) : ∃ δ, space.difference x y axis = .ok δ ∧
      (space.differences x y)[axis]? = some δ := by
  cases space with
  | unbounded =>
    obtain ⟨hx, hy⟩ := Nat.lt_min.mp h
    obtain ⟨a, ha, hxa⟩ := exists_coordinate hx
    obtain ⟨b, hb, hyb⟩ := exists_coordinate hy
    refine ⟨a - b, by rw [difference, ha, hb]; rfl, ?_⟩
    exact List.getElem?_zipWith_eq_some.mpr ⟨a, b, hxa, hyb, rfl⟩
  | periodic torus =>
    obtain ⟨hpoints, htorus⟩ := Nat.lt_min.mp h
    obtain ⟨hx, hy⟩ := Nat.lt_min.mp hpoints
    obtain ⟨a, ha, hxa⟩ := exists_coordinate hx
    obtain ⟨b, hb, hyb⟩ := exists_coordinate hy
    have hc := List.getElem?_eq_getElem (l := torus.axes) htorus
    refine ⟨_, by rw [difference, ha, hb]; simp only [Torus.circle_of_getElem? hc]; rfl, ?_⟩
    exact List.getElem?_zipWith_eq_some.mpr
      ⟨a - b, _, List.getElem?_zipWith_eq_some.mpr ⟨a, b, hxa, hyb, rfl⟩, hc, rfl⟩

end Space

namespace Tracker

variable {t : Tracker α} {dims : Nat} {space : Space α} {first second : Box α} {n : Norm α}
  {ε limit : α}

/-! ## One state -/

/-- What can fail in a tracker for boxes with `dims` axes, and what is left then. -/
structure Guarded (t : Tracker α) (dims : Nat) : Prop where
  push_ok : ∀ side half cut,
    (t.act (.push side half cut)).report.result = .ok () ↔ cut.axis < dims
  push_error : ∀ side half cut, dims ≤ cut.axis →
    (t.act (.push side half cut)).report.result = .error (.indexOutOfRange dims cut.axis) ∧
    ∃ capacity, (t.act (.push side half cut)).tracker = t.withCapacity capacity
  pop_ok : (t.act .pop).report.result = .ok () ↔ t.depth ≠ 0
  pop_error : t.depth = 0 → t.act .pop = ⟨t, .error .unmatchedPop, []⟩
  tryPop_ok : (t.act .tryPop).report.result = .ok () ↔ t.depth ≠ 0
  tryPop_error : t.depth = 0 → t.act .tryPop = ⟨t, .error .underflow, []⟩
  distance : ∀ x y, (t.space.differences x y).length = t.space.common x y ∧
    ∀ axis, axis < t.space.common x y →
      ∃ δ, t.space.difference x y axis = .ok δ ∧ (t.space.differences x y)[axis]? = some δ

theorem act_tryPop_of_depth_eq_zero (h : t.depth = 0) :
    t.act .tryPop = ⟨t, .error .underflow, []⟩ := by
  have hf : t.stack.frames = [] := List.length_eq_zero_iff.mp h
  rw [act, tryPop, hf]
  rfl

theorem act_pop_of_depth_eq_zero (h : t.depth = 0) :
    t.act .pop = ⟨t, .error .unmatchedPop, []⟩ := by
  have hf : t.stack.frames = [] := List.length_eq_zero_iff.mp h
  rw [act, pop, tryPop, hf]
  rfl

omit [Scalar α] in
theorem exists_tryPop_eq_ok (h : t.depth ≠ 0) : ∃ t', t.tryPop = .ok t' := by
  obtain ⟨f, frames, hf⟩ := List.exists_cons_of_length_pos (Nat.pos_of_ne_zero h)
  rw [tryPop, hf]
  exact ⟨_, rfl⟩

theorem result_act_tryPop_eq_ok_iff :
    (t.act .tryPop).report.result = .ok () ↔ t.depth ≠ 0 := by
  constructor
  · intro h h0
    rw [act_tryPop_of_depth_eq_zero h0] at h
    cases h
  · intro h
    obtain ⟨t', ht'⟩ := exists_tryPop_eq_ok h
    rw [act, ht']
    rfl

theorem result_act_pop_eq_ok_iff : (t.act .pop).report.result = .ok () ↔ t.depth ≠ 0 := by
  constructor
  · intro h h0
    rw [act_pop_of_depth_eq_zero h0] at h
    cases h
  · intro h
    obtain ⟨t', ht'⟩ := exists_tryPop_eq_ok h
    rw [act, pop, ht']
    rfl

/-- **In a tracker of good shape only the two things fail**, and leave what they found. -/
theorem Shaped.guarded (h : t.Shaped dims) : t.Guarded dims where
  push_ok side half cut := by
    rw [← exists_push_iff h side half cut]
    constructor
    · intro hok
      exact ⟨_, Prod.ext hok rfl⟩
    · rintro ⟨t', hp⟩
      exact congrArg Prod.fst hp
  push_error side half cut hge := by
    have hp := h.push_of_not_lt side half (Nat.not_lt.mpr hge)
    refine ⟨congrArg Prod.fst hp, t.reserve.capacity, ?_⟩
    rw [tracker_act_push, hp]
    rfl
  pop_ok := result_act_pop_eq_ok_iff
  pop_error := act_pop_of_depth_eq_zero
  tryPop_ok := result_act_tryPop_eq_ok_iff
  tryPop_error := act_tryPop_of_depth_eq_zero
  distance x y := ⟨Space.length_differences t.space x y, fun _ => Space.exists_difference⟩

/-! ## Building -/

/-- Boxes with different numbers of axes are refused, whatever the space. -/
theorem result_build_of_dims_ne (h : first.dims ≠ second.dims) :
    (build space first second n ε limit).result
      = .error (.dimensionMismatch first.dims second.dims) := by
  simp [build, checkPair, h]

/-- A torus with another number of axes than the boxes is refused. -/
theorem result_build_of_torus_dims_ne {torus : Torus α} (h : first.dims = second.dims)
    (ht : torus.dims ≠ first.dims) : (build (.periodic torus) first second n ε limit).result
      = .error (.torusMismatch first.dims torus.dims) := by
  have hcheck : (Space.periodic torus).checkDims first.dims
      = .error (.torusMismatch first.dims torus.dims) := if_neg ht
  simp [build, checkPair, h, h ▸ hcheck]

/--
**A tracker is refused with the reason, or built; and then nothing but two things ever fails.**

Boxes with different numbers of axes are refused, then a torus with another number of axes, and all
others are accepted. After any actions on the tracker, its forks and their forks, each of them is
guarded: a push fails exactly along an axis that the boxes lack and changes nothing but the room on
the stack, going back fails exactly with nothing to undo and changes nothing at all, and everything
that a distance looks up is there, whatever the lengths of the points.
-/
theorem guarded_run (space : Space α) (first second : Box α) (n : Norm α) (ε limit : α) :
    (first.dims ≠ second.dims → (build space first second n ε limit).result
      = .error (.dimensionMismatch first.dims second.dims)) ∧
    (first.dims = second.dims → ∀ torus, space = .periodic torus → torus.dims ≠ first.dims →
      (build space first second n ε limit).result
        = .error (.torusMismatch first.dims torus.dims)) ∧
    (first.dims = second.dims → (∀ torus, space = .periodic torus → torus.dims = first.dims) →
      ∃ t, (build space first second n ε limit).result = .ok t ∧
        ∀ ms, ∀ u ∈ ((Family.singleton t).run ms).members, u.Guarded first.dims) := by
  refine ⟨result_build_of_dims_ne, ?_, ?_⟩
  · rintro h torus rfl ht
    exact result_build_of_torus_dims_ne h ht
  · intro h ht
    have hfit : space.Fits first second := ⟨h, Space.checkDims_eq_ok_iff.mpr ht⟩
    refine ⟨_, result_build_eq_ok_iff.mpr ⟨hfit, rfl⟩, ?_⟩
    intro ms u hu
    -- all members stem from the one that was built, by what keeps its shape
    have hshape : u.Shaped first.dims := by
      refine Family.forall_members_run (P := (·.Shaped first.dims)) ?_ ?_ ?_ ms u hu
      · exact fun t a hs => hs.act a
      · exact fun t hs => ⟨hs.first, hs.second, hs.checked⟩
      · intro t ht
        rw [List.mem_singleton.mp ht]
        exact shaped_start hfit n ε limit
    exact hshape.guarded

/-- Boxes that fit neither each other nor a circle, and a fork that goes back once too often and is
pushed along an axis that its boxes lack. -/
theorem guarded_run_float :
    let space : Space Float := .periodic ⟨[⟨10, 5⟩]⟩
    let narrow : Box Float := ⟨[⟨0 / 0, 1⟩]⟩
    let wide : Box Float := ⟨[⟨0, 1⟩, ⟨3, 2⟩]⟩
    (build space narrow wide .manhattan 0 1).result = .error (.dimensionMismatch 1 2) ∧
    (build space wide wide .manhattan 0 1).result = .error (.torusMismatch 2 1) ∧
    ∃ t, (build space narrow narrow .manhattan 0 1).result = .ok t ∧
      let F := (Family.singleton t).run [.act (.push .first .lower ⟨0, 1⟩), .fork, .act .pop]
      F.current.act .pop = ⟨F.current, .error .unmatchedPop, []⟩ ∧
      (F.current.act (.push .second .upper ⟨3, 0⟩)).report.result
        = .error (.indexOutOfRange 1 3) := by
  intro space narrow wide
  obtain ⟨hboxes, -, -⟩ := guarded_run space narrow wide .manhattan 0 1
  obtain ⟨-, htorus, -⟩ := guarded_run space wide wide .manhattan 0 1
  obtain ⟨-, -, hbuilt⟩ := guarded_run space narrow narrow .manhattan 0 1
  obtain ⟨t, ht, hguarded⟩ := hbuilt rfl fun _ h => congrArg Torus.dims (Space.periodic.inj h).symm
  have hcurrent := hguarded _ _ (Family.current_mem
    ((Family.singleton t).run [.act (.push .first .lower ⟨0, 1⟩), .fork, .act .pop]))
  refine ⟨hboxes (by decide), htorus rfl _ rfl (by decide), t, ht, ?_, ?_⟩
  · refine hcurrent.pop_error ?_
    obtain ⟨-, rfl⟩ := result_build_eq_ok_iff.mp ht
    rfl
  · exact (hcurrent.push_error .second .upper ⟨3, 0⟩ (by decide)).1

end Tracker

end MinkowskiBounds
