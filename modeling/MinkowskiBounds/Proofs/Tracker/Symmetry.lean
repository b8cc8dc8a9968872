import MinkowskiBounds.Proofs.Space.Symmetry
import MinkowskiBounds.Proofs.Tracker.Fresh

/-!
# Trackers look the same from both sides

A tracker for two boxes and one for the same boxes the other way round, driven by the same actions but
on the other box each, go through states that mirror each other (`Tracker.run_swap`): the boxes and
the sides of the frames are exchanged, and all else is equal, the bounds above all. This holds of any
arithmetic as long as the space separates the boxes alike both ways, which over exact numbers it does
for all boxes of numbers (`Tracker.run_swapped_boxes`).
-/

namespace MinkowskiBounds

/-! ## The other way round -/

section

variable {α : Type}

/-- The other one of the two boxes. -/
def Side.swap : Side → Side
  | .first => .second
  | .second => .first

/-- The same action on the other box. -/
def Action.swap : Action α → Action α
  | .push side half cut => .push side.swap half cut
  | .pop => .pop
  | .tryPop => .tryPop

/-- What a push on the other box would have saved. -/
def Frame.swap (f : Frame α) : Frame α := { f with side := f.side.swap }

/-- The same frames for the other box each. -/
def FrameStack.swap (s : FrameStack α) : FrameStack α := { s with frames := s.frames.map Frame.swap }

/-- The tracker for the same boxes the other way round. -/
def Tracker.swap (t : Tracker α) : Tracker α :=
  { t with first := t.second, second := t.first, stack := t.stack.swap }

variable [Scalar α]

namespace Tracker

variable {t : Tracker α} {dims : Nat} {side : Side} {half : Half} {cut : Cut α}

/-- The boxes of the tracker are separated alike both ways. -/
def Reversible (t : Tracker α) : Prop := t.swap.separations = t.separations

omit [Scalar α] in
@[simp] theorem bounds_swap (t : Tracker α) : t.swap.bounds = t.bounds := rfl

omit [Scalar α] in
theorem Shaped.swap (h : t.Shaped dims) : t.swap.Shaped dims :=
  ⟨h.second, h.first, h.checked⟩

omit [Scalar α] in
theorem box_swap (t : Tracker α) (side : Side) : t.swap.box side.swap = t.box side := by
  cases side <;> rfl

omit [Scalar α] in
theorem reserve_swap (t : Tracker α) : t.swap.reserve = t.reserve.swap := by
  unfold reserve swap FrameStack.swap FrameStack.reserve FrameStack.growth? FrameStack.depth
  rw [List.length_map]

omit [Scalar α] in
theorem pushed_swap (t : Tracker α) (side : Side) (half : Half) (cut : Cut α) (I : Interval α)
    (bounds : Bounds α) :
    t.swap.pushed side.swap half cut I bounds = (t.pushed side half cut I bounds).swap := by
  unfold pushed
  rw [reserve_swap]
  cases side <;> rfl

/-- A push on the other box leads to the mirrored state, if the boxes are separated alike both ways
before it and after it. -/
theorem push_swap (hs : t.Shaped dims) (hbefore : t.Reversible)
    (hafter : (t.push side half cut).2.Reversible) :
    (t.swap.push side.swap half cut).2 = (t.push side half cut).2.swap := by
  by_cases hlt : cut.axis < dims
  · have hnarrow : (t.swap.narrow side.swap half cut).separations
        = (t.narrow side half cut).separations := by
      obtain ⟨I, bounds, -, hp, -⟩ := push_of_lt hs side half hlt
      rw [hp, Reversible, separations_pushed, ← pushed_swap, separations_pushed] at hafter
      exact hafter
    obtain ⟨I, bounds, hp, hp'⟩ := exists_pushed_of_alike hs hs.swap rfl rfl (box_swap t side)
      hbefore hnarrow hlt
    rw [hp, hp', pushed_swap]
  · rw [hs.swap.push_of_not_lt side.swap half hlt, hs.push_of_not_lt side half hlt]
    exact reserve_swap t

omit [Scalar α] in
theorem undo_swap (t : Tracker α) : t.swap.undo = t.undo.swap := by
  have hf : t.swap.stack.frames = t.stack.frames.map Frame.swap := rfl
  unfold undo
  rw [hf]
  cases t.stack.frames with
  | nil => rfl
  | cons f frames =>
    simp only [List.map_cons, restore, mapBox, Frame.swap]
    cases f.side with
    | first => rfl
    | second => rfl

theorem tracker_act_swap (hs : t.Shaped dims) (hbefore : t.Reversible) {a : Action α}
    (hafter : (t.act a).tracker.Reversible) :
    (t.swap.act a.swap).tracker = (t.act a).tracker.swap := by
  cases a with
  | push side half cut =>
    rw [tracker_act_push] at hafter
    rw [Action.swap, tracker_act_push, tracker_act_push]
    exact push_swap hs hbefore hafter
  | pop => rw [Action.swap, tracker_act_pop, tracker_act_pop, undo_swap]
  | tryPop => rw [Action.swap, tracker_act_tryPop, tracker_act_tryPop, undo_swap]

/-- **The mirrored run leads to the mirrored state**, as long as the boxes are separated alike both
ways. -/
theorem run_swap (hs : t.Shaped dims) {as : List (Action α)}
    (has : ∀ bs, bs <+: as → (t.run bs).Reversible) :
    t.swap.run (as.map Action.swap) = (t.run as).swap := by
  refine run_map_of_act fun bs a hbs => ?_
  have hafter := has (bs ++ [a]) hbs
  rw [run_concat] at hafter
  exact tracker_act_swap (hs.run bs) (has bs ((List.prefix_append bs [a]).trans hbs)) hafter

end Tracker

end

/-! ## Exact numbers -/

open Extended

namespace Tracker

variable {K : Type} [Field K] [LinearOrder K] [FloorRing K] [Powers K] [IsStrictOrderedRing K]
  {space : Space (Extended K)} {first second : Box (Extended K)} {n : Norm (Extended K)}
  {ε limit : Extended K}

theorem start_swap (hdims : first.dims = second.dims) (hfirst : first.IsNum)
    (hsecond : second.IsNum) :
    start space second first n ε limit = (start space first second n ε limit).swap := by
  rw [start, Space.separations_comm hdims hfirst hsecond]
  rfl

/-- Boxes of numbers are built into mirrored trackers, or refused for the same reason. -/
theorem result_build_swap (hdims : first.dims = second.dims) (hfirst : first.IsNum)
    (hsecond : second.IsNum) : (build space second first n ε limit).result
      = (build space first second n ε limit).result.map swap := by
  cases hc : space.checkDims first.dims with
  | error cause => simp [build, checkPair, hdims, hdims ▸ hc, Except.map]
  | ok u =>
    have hbuilt := result_build_eq_ok_iff.mpr
      ⟨⟨hdims, hc⟩, rfl (a := start space first second n ε limit)⟩
    have hbuilt' := result_build_eq_ok_iff.mpr
      ⟨⟨hdims.symm, hdims ▸ hc⟩, rfl (a := start space second first n ε limit)⟩
    rw [hbuilt, hbuilt', start_swap hdims hfirst hsecond]
    rfl

/--
**No bound depends on which box comes first, and no distance on which point does.**

Over exact numbers, in any space and norm, take boxes of numbers, in order or not, with equally many
axes. Both ways round they are refused for the same reason, or both trackers are built; and then runs
of the one that cut at numbers and the mirrored runs of the other lead to mirrored states, with equal
bounds. In unbounded space, and on a torus made from its periods, be they numbers or infinite, two
points of numbers are equally far apart both ways, whatever the limit.
-/
theorem run_swapped_boxes (space : Space (Extended K)) (hdims : first.dims = second.dims)
    (hfirst : first.IsNum) (hsecond : second.IsNum) (n : Norm (Extended K)) (ε limit : Extended K) :
    (build space second first n ε limit).result
      = (build space first second n ε limit).result.map swap ∧
    (∀ t t', (build space first second n ε limit).result = .ok t →
      (build space second first n ε limit).result = .ok t' →
      ∀ as : List (Action (Extended K)),
        (∀ p : Push (Extended K), p.action ∈ as → ∃ v : K, p.cut.value = num v) →
        (t'.run (as.map Action.swap)).bounds = (t.run as).bounds ∧
          t'.run (as.map Action.swap) = (t.run as).swap) ∧
    (space.IsRegular → ∀ (limit : Extended K) (x y : List K),
      space.distance n limit (x.map num) (y.map num)
        = space.distance n limit (y.map num) (x.map num)) := by
  refine ⟨result_build_swap hdims hfirst hsecond, ?_, fun hspace limit x y => ?_⟩
  · intro t t' ht ht' as has
    obtain ⟨hfit, rfl⟩ := result_build_eq_ok_iff.mp ht
    obtain ⟨-, rfl⟩ := result_build_eq_ok_iff.mp ht'
    have hs := shaped_start hfit n ε limit
    have hrun : (start space second first n ε limit).run (as.map Action.swap)
        = ((start space first second n ε limit).run as).swap := by
      rw [start_swap hdims hfirst hsecond]
      refine run_swap hs ?_
      intro bs hbs
      -- boxes of numbers stay so on the way, and all of them are separated alike both ways
      have hs' := hs.run bs
      obtain ⟨hnum, hnum'⟩ := isNum_run hs rfl hfirst hsecond fun p hp => has p (hbs.subset hp)
      exact Space.separations_comm (hs'.first.trans hs'.second.symm) hnum hnum'
    exact ⟨by rw [hrun, bounds_swap], hrun⟩
  · exact (Space.distance_comm hspace n limit x y).symm

/-- An interval whose ends are not in order, on a circle beside an axis of infinite period, pushes on
both boxes, one that fails and one that is undone, with cubes; and two points half a period apart, of
which both differences wrap to half a period. -/
theorem run_swapped_boxes_cubes :
    let periods : List (Extended ℚ) := [num 10, inf false]
    let torus : Torus (Extended ℚ) := ⟨periods.map .ofPeriod⟩
    let space : Space (Extended ℚ) := .periodic torus
    let first : Box (Extended ℚ) := ⟨[⟨num 4, num 0⟩, ⟨num 0, num 50⟩]⟩
    let second : Box (Extended ℚ) := ⟨[⟨num 3, num 5⟩, ⟨num 70, num 90⟩]⟩
    let n : Norm (Extended ℚ) := .ofExponent (num 3)
    let kept : Push (Extended ℚ) := ⟨.first, .lower, ⟨0, num (-5)⟩⟩
    let undone : Push (Extended ℚ) := ⟨.second, .upper, ⟨1, num 80⟩⟩
    let failed : Push (Extended ℚ) := ⟨.second, .lower, ⟨7, num 1⟩⟩
    let as : List (Action (Extended ℚ)) := [kept.action, undone.action, .pop, failed.action]
    let as' : List (Action (Extended ℚ)) :=
      [.push .second .lower kept.cut, .push .first .upper undone.cut, .pop,
        .push .first .lower failed.cut]
    (Circle.ofPeriod (num 10)).wrap (num (0 : ℚ) - num 5) = num 5 ∧
    (Circle.ofPeriod (num 10)).wrap (num (5 : ℚ) - num 0) = num 5 ∧
    (∃ t t', (build space first second n (num 0) (num 9)).result = .ok t ∧
      (build space second first n (num 0) (num 9)).result = .ok t' ∧
      (t'.run as').bounds = (t.run as).bounds ∧ (t'.run as').first = (t.run as).second) ∧
    space.distance n (num 9) ([0, 1].map num) ([5, -30].map num)
      = space.distance n (num 9) ([5, -30].map num) ([0, 1].map num) := by
  intro periods torus space first second n kept undone failed as as'
  have htorus : Torus.ofPeriods periods = .ok torus :=
    Torus.ofPeriods_eq_ok_iff.mpr ⟨by decide +kernel, rfl⟩
  have hspace : space.IsRegular := .inr ⟨periods, torus, htorus, rfl⟩
  have hfirst : first.IsNum := Box.isNum_map [(4, 0), (0, 50)]
  have hsecond : second.IsNum := Box.isNum_map [(3, 5), (70, 90)]
  have has : ∀ p : Push (Extended ℚ), p.action ∈ as → ∃ v : ℚ, p.cut.value = num v := by
    intro p hp
    simp only [as, Push.action, List.mem_cons, List.not_mem_nil, or_false, Action.push.injEq,
      reduceCtorEq, false_or] at hp
    rcases hp with ⟨-, -, hcut⟩ | ⟨-, -, hcut⟩ | ⟨-, -, hcut⟩
    · exact ⟨-5, by rw [hcut]⟩
    · exact ⟨80, by rw [hcut]⟩
    · exact ⟨1, by rw [hcut]⟩
  have hdims : first.dims = second.dims := rfl
  obtain ⟨hbuild, hrun, hdistance⟩ :=
    run_swapped_boxes space hdims hfirst hsecond n (num 0) (num 9)
  have ht : (build space first second n (num 0) (num 9)).result
      = .ok (start space first second n (num 0) (num 9)) :=
    result_build_eq_ok_iff.mpr ⟨⟨rfl, rfl⟩, rfl⟩
  have ht' := hbuild.trans (congrArg (Except.map swap) ht)
  obtain ⟨hbounds, hstate⟩ := hrun _ _ ht ht' as has
  exact ⟨by decide +kernel, by decide +kernel, ⟨_, _, ht, ht', hbounds, congrArg (·.first) hstate⟩,
    hdistance hspace (num 9) [0, 1] [5, -30]⟩

end Tracker

end MinkowskiBounds
