import MinkowskiBounds.Proofs.Norm.Limit
import MinkowskiBounds.Proofs.Norm.Raise
import MinkowskiBounds.Proofs.Tracker.Fresh

/-!
# The limit of a tracker

The limit is given to a tracker as a distance, and held in raised form; distances between points are
raised, and cut short at the limit. Over the real numbers comparing the two is nevertheless comparing
the distance between the points with the limit as it was given
(`Tracker.distance_le_limit_iff`), because raising keeps the order and because what is cut off never
changes on which side of the limit a distance is.
-/

namespace MinkowskiBounds

open Extended Scalar

namespace Tracker

/-- Runs leave the limit as it is. -/
theorem limit_run {α : Type} [Scalar α] {t : Tracker α} {dims : Nat} (hs : t.Shaped dims)
    (hf : t.stack.frames = []) (as : List (Action α)) : (t.run as).limit = t.limit := by
  refine run_keeps (·.limit) hs hf (fun _ _ => rfl) ?_ as
  intro s side half cut I bounds
  cases side <;> rfl

/--
**Raised distances are compared with the raised limit as distances are with the limit.**

For every exponent above zero, infinity included, raising is an isomorphism of the values from zero to
infinity, with the root as its inverse. A tracker may be built in any space, with any limit not below
zero, and driven in any way: the distance that it finds between two points is within its limit exactly
if their full distance, as the space has it, is within the limit that the tracker was given.
-/
theorem distance_le_limit_iff {p : Extended ℝ} (hp : 0 < p) :
    (Norm.ofExponent p).RaisesFaithfully ∧
    ∀ (space : Space (Extended ℝ)) (first second : Box (Extended ℝ)) (ε u : Extended ℝ)
      (t : Tracker (Extended ℝ)),
      (build space first second (.ofExponent p) ε u).result = .ok t → 0 ≤ u → ∀ as x y,
        ((t.run as).distance x y ≤ (t.run as).limit ↔
          (Norm.ofExponent p).root (space.distance (.ofExponent p) infinity x y) ≤ u) := by
  have hraise := Norm.raisesFaithfully_ofExponent hp
  have hgrow : Growing (Extended ℝ) := growing powersNonneg_real
  refine ⟨hraise, ?_⟩
  intro space first second ε u t h hu as x y
  obtain ⟨hfit, rfl⟩ := result_build_eq_ok_iff.mp h
  have hs := shaped_start hfit (.ofExponent p) ε u
  obtain ⟨hspace, hnorm⟩ := space_norm_run hs rfl as
  have hlimit := limit_run hs rfl as
  have hraised : 0 ≤ (Norm.ofExponent p).raise u := hraise.raise_nonneg hu
  rw [distance, hspace, hnorm, hlimit]
  show space.distance (.ofExponent p) ((Norm.ofExponent p).raise u) x y
    ≤ (Norm.ofExponent p).raise u ↔ _
  rw [hgrow.distance_le_iff (ordered.le_refl (ordered.defined_of_le hraised).2)]
  by_cases hdef : IsDefined (space.distance (.ofExponent p) infinity x y)
  · exact (hraise.root_le_iff (hgrow.sum_nonneg hdef) hu).symm
  · -- a distance that is not a number is within no limit, and neither is its root
    have hnan : space.distance (.ofExponent p) infinity x y = nan := by
      rwa [isDefined_iff, not_not] at hdef
    rw [hnan, Norm.root_nan hp]
    exact iff_of_false Bool.false_ne_true Bool.false_ne_true

/-- Cubes on a line, after a push, for two points at exactly the limit; and the limit taken to its cube
and back. -/
theorem distance_le_limit_iff_cubes :
    let first : Box (Extended ℝ) := ⟨[⟨num 0, num 1⟩]⟩
    let second : Box (Extended ℝ) := ⟨[⟨num 2, num 4⟩]⟩
    let n : Norm (Extended ℝ) := .ofExponent (num 3)
    let t := start .unbounded first second n (num 0) (num 2)
    let t' := t.run [.push .first .lower ⟨0, num (1 / 2)⟩]
    (0 : Extended ℝ) < num 3 ∧ (0 : Extended ℝ) ≤ num 2 ∧
    (build .unbounded first second n (num 0) (num 2)).result = .ok t ∧
    n.root (n.raise (num 2)) = num 2 ∧
    n.root (Space.unbounded.distance n infinity [num 0] [num 2]) ≤ num 2 ∧
    t'.distance [num 0] [num 2] ≤ t'.limit := by
  intro first second n t t'
  have hp : (0 : Extended ℝ) < num 3 := num_lt_num.mpr three_pos
  have hu : (0 : Extended ℝ) ≤ num 2 := num_le_num.mpr zero_le_two
  have h : (build .unbounded first second n (num 0) (num 2)).result = .ok t :=
    result_build_eq_ok_iff.mpr ⟨⟨rfl, rfl⟩, rfl⟩
  obtain ⟨hraise, hdistance⟩ := distance_le_limit_iff hp
  have hn : n = .general (num 3) := Norm.ofExponent_num (by norm_num) (by norm_num)
  have hpoints : Space.unbounded.distance n infinity [num 0] [num 2] = n.raise (num 2) := by
    show n.sum infinity [num 0 - num 2] = n.raise (num 2)
    rw [Norm.sum, Norm.sumFrom_eq_foldl ordered.not_infinity_lt, Norm.raise_num three_pos zero_le_two, hn]
    simp [Norm.accumulate, ← num_zero, pow_num]
  have hroot : n.root (n.raise (num 2)) = num 2 := hraise.root_raise hu
  have hfull : n.root (Space.unbounded.distance n infinity [num 0] [num 2]) ≤ num 2 := by
    rw [hpoints, hroot, num_le_num]
  exact ⟨hp, hu, h, hroot, hfull, (hdistance _ first second _ _ t h hu _ _ _).mpr hfull⟩

end Tracker

end MinkowskiBounds
