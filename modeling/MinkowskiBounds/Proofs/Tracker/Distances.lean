import MinkowskiBounds.Proofs.Box.Distances
import MinkowskiBounds.Proofs.Space.Rounded
import MinkowskiBounds.Proofs.Tracker.Extremes

/-!
# Bounds and the distances between boxes

A tracker in unbounded space and the boxes themselves come to the same distances in two ways: the
tracker takes the separations of all axes into raised bounds, and the boxes stream each bound of the
separations by itself through the norm (`Box.minDistance`, `Box.maxDistance`).

So a new tracker agrees with its boxes wherever separations are their own absolute values, whether or
not the arithmetic rounds; and in exact arithmetic it goes on to agree while it is pushed and popped.
-/

namespace MinkowskiBounds

open Extended

section

variable {α : Type} [Scalar α] {n : Norm α}

/-! ## Measured bounds -/

namespace Tracker

variable {t : Tracker α} {first second : Box α}

/-- The bounds, as distances, are the distances between the boxes. -/
structure AgreesWithBoxes (n : Norm α) (t : Tracker α) : Prop where
  least : n.root t.bounds.least = t.first.minDistance n t.second
  greatest : n.root t.bounds.greatest = t.first.maxDistance n t.second

/-- **Measured bounds agree with the distances between the boxes** where separations are their own
absolute values and nothing is above infinity. -/
theorem agreesWithBoxes_of_measured (hspace : t.space = .unbounded ∧ t.norm = n)
    (hb : t.bounds = t.measured) (hinf : ∀ a : α, ¬ Scalar.infinity < a)
    (habs : ∀ s ∈ t.separations, s.AbsEq) : t.AgreesWithBoxes n := by
  obtain ⟨hspace, rfl⟩ := hspace
  rw [separations, hspace] at habs
  obtain ⟨hleast, hgreatest⟩ := t.norm.root_foldl_join hinf habs
  rw [measured, separations, hspace] at hb
  exact ⟨hb ▸ hleast, hb ▸ hgreatest⟩

/-- A new tracker agrees with its boxes. -/
theorem exists_build_agreesWithBoxes (hdims : first.dims = second.dims) (n : Norm α) (ε limit : α)
    (hinf : ∀ a : α, ¬ Scalar.infinity < a)
    (habs : ∀ s ∈ Space.unbounded.separations first second, s.AbsEq) :
    ∃ t, (build .unbounded first second n ε limit).result = .ok t ∧ t.AgreesWithBoxes n :=
  ⟨_, result_build_eq_ok_iff.mpr ⟨⟨hdims, rfl⟩, rfl⟩,
    agreesWithBoxes_of_measured ⟨rfl, rfl⟩ rfl hinf habs⟩

/-! ## Runs of new trackers -/

/-- In exact arithmetic the bounds go on to agree with the boxes. -/
theorem agreesWithBoxes_run_exact {K : Type} [Field K] [LinearOrder K] [IsStrictOrderedRing K]
    [FloorRing K] [Powers K] {t : Tracker (Extended K)} {n : Norm (Extended K)} {dims : Nat}
    (hs : t.Shaped dims) (hf : t.stack.frames = []) (hspace : t.space = .unbounded ∧ t.norm = n)
    (hb : t.bounds = t.measured) (hn : n.IsMonotone) (h : t.space.Orderly t.first t.second)
    {as : List (Action (Extended K))} (has : t.CutsInside as) :
    (t.run as).AgreesWithBoxes n := by
  have horderly : ∀ bs, bs <+: as → _ := fun bs => orderly_run hs hf h has
  obtain ⟨hspace', hnorm'⟩ := space_norm_run hs hf as
  exact agreesWithBoxes_of_measured ⟨hspace'.trans hspace.1, hnorm'.trans hspace.2⟩
    (bounds_run_orderly hs hf hb (hspace.2 ▸ hn) horderly) not_inf_lt
    (Space.Orderly.absEq (hspace' ▸ horderly as (List.prefix_refl as)) (hs.run as).fits)

/--
**A tracker agrees with its boxes.**

In unbounded space the bounds that a tracker holds, as distances, are the least and the greatest
distance between its boxes as these are measured by themselves:

* in exact arithmetic, for boxes with ends in order and any exponent that is infinite or whose power
  is monotone, when the tracker is built and after every run whose pushes cut inside the intervals
  that they split;
* when it is built, for any exponent and in any arithmetic in which nothing is above infinity and
  what is not below zero is its own absolute value, where no separation is below zero;
* so in rounded arithmetic, for boxes with ends in order, if only rounding keeps the sign.
-/
theorem agreesWithBoxes_run :
    (∀ (K : Type) [Field K] [LinearOrder K] [IsStrictOrderedRing K] [FloorRing K] [Powers K]
      (first second : Box (Extended K)) (p ε limit : Extended K), first.dims = second.dims →
      first.Proper → second.Proper →
      p = Scalar.infinity ∨ (∃ q, p = num q ∧ PowMonotone q) →
      ∃ t, (build .unbounded first second (.ofExponent p) ε limit).result = .ok t ∧
        ∀ as, t.CutsInside as → (t.run as).AgreesWithBoxes (.ofExponent p)) ∧
    (∀ (α : Type) [Scalar α] (first second : Box α) (p ε limit : α), first.dims = second.dims →
      (∀ a : α, ¬ Scalar.infinity < a) → (∀ s : α, 0 ≤ s → Scalar.abs s = s) →
      (∀ s ∈ Space.unbounded.separations first second, 0 ≤ s.least ∧ 0 ≤ s.greatest) →
      ∃ t, (build .unbounded first second (.ofExponent p) ε limit).result = .ok t ∧
        t.AgreesWithBoxes (.ofExponent p)) ∧
    ∀ (K : Type) [Field K] [LinearOrder K] [IsStrictOrderedRing K] [FloorRing K] [Powers K]
      (rnd : K → K) (first second : Box (Rounded rnd)) (p ε limit : Rounded rnd),
      (∀ x, 0 ≤ x → 0 ≤ rnd x) → first.dims = second.dims → first.Proper → second.Proper →
      ∃ t, (build .unbounded first second (.ofExponent p) ε limit).result = .ok t ∧
        t.AgreesWithBoxes (.ofExponent p) := by
  refine ⟨?_, ?_, ?_⟩
  · intro K _ _ _ _ _ first second p ε limit hdims hfirst hsecond hp
    have hfit : Space.unbounded.Fits first second := ⟨hdims, rfl⟩
    refine ⟨_, result_build_eq_ok_iff.mpr ⟨hfit, rfl⟩, ?_⟩
    intro as has
    exact agreesWithBoxes_run_exact (shaped_start hfit (.ofExponent p) ε limit) rfl ⟨rfl, rfl⟩ rfl
      (Norm.isMonotone_ofExponent hp) (Space.orderly_unbounded hfirst hsecond) has
  · intro α _ first second p ε limit hdims hinf habs hseps
    refine exists_build_agreesWithBoxes hdims _ ε limit hinf ?_
    intro s hs
    obtain ⟨hl, hg⟩ := hseps s hs
    exact ⟨habs _ hl, habs _ hg⟩
  · intro K _ _ _ _ _ rnd first second p ε limit hrnd hdims hfirst hsecond
    refine exists_build_agreesWithBoxes hdims _ ε limit not_inf_lt ?_
    intro s hs
    obtain ⟨l, g, hl, hg, rfl⟩ := Space.exists_nonneg_of_mem_separations hrnd hfirst hsecond s hs
    exact ⟨congrArg num (abs_of_nonneg hl), congrArg num (abs_of_nonneg hg)⟩

/-- The three readings at once: a run in the Euclidean norm that ends at distances 5 and 13, two
endless boxes, and two points five apart in arithmetic with two bits. -/
theorem agreesWithBoxes_run_examples :
    (let first : Box (Extended ℚ) := ⟨[⟨num 0, num 1⟩, ⟨num 0, num 6⟩]⟩
      let second : Box (Extended ℚ) := ⟨[⟨num 4, num 9⟩, ⟨num 8, num 12⟩]⟩
      let n : Norm (Extended ℚ) := .ofExponent (num 2)
      let as : List (Action (Extended ℚ)) :=
        [.push .second .lower ⟨0, num 5⟩, .push .first .lower ⟨1, num 2⟩, .pop,
          .push .first .lower ⟨1, num 4⟩]
      first.Proper ∧ second.Proper ∧ PowMonotone (2 : ℚ) ∧
      ∃ t, (build .unbounded first second n (num 0) (inf false)).result = .ok t ∧
        t.CutsInside as ∧ (t.run as).AgreesWithBoxes n ∧
        (t.run as).first.minDistance n (t.run as).second = num 5 ∧
        (t.run as).first.maxDistance n (t.run as).second = num 13) ∧
    (let first : Box (Extended ℚ) := ⟨[⟨inf true, num 0⟩]⟩
      let second : Box (Extended ℚ) := ⟨[⟨num 1, inf false⟩]⟩
      let n : Norm (Extended ℚ) := .ofExponent 1
      ∃ t, (build .unbounded first second n (num 0) (inf false)).result = .ok t ∧
        t.AgreesWithBoxes n ∧ first.minDistance n second = num 1 ∧
        first.maxDistance n second = inf false) ∧
    (let first : Box (Rounded (roundTo 2)) := ⟨[⟨num 0, num 0⟩]⟩
      let second : Box (Rounded (roundTo 2)) := ⟨[⟨num 5, num 5⟩]⟩
      let n : Norm (Rounded (roundTo 2)) := .ofExponent 1
      first.Proper ∧ second.Proper ∧
      ∃ t, (build .unbounded first second n (num 0) (inf false)).result = .ok t ∧
        t.AgreesWithBoxes n ∧ first.minDistance n second = .of _ 4) := by
  obtain ⟨hexact, hany, hrounded⟩ := agreesWithBoxes_run
  refine ⟨?_, ?_, ?_⟩
  · intro first second n as
    have hfirst : first.Proper := Box.proper_map [(0, 1), (0, 6)] (by decide +kernel)
    have hsecond : second.Proper := Box.proper_map [(4, 9), (8, 12)] (by decide +kernel)
    have hpow : PowMonotone (2 : ℚ) := powMonotone_natCast 2
    obtain ⟨t, ht, hagree⟩ := hexact ℚ first second (num 2) (num 0) (inf false) rfl hfirst hsecond
      (.inr ⟨2, rfl, hpow⟩)
    obtain ⟨-, rfl⟩ := result_build_eq_ok_iff.mp ht
    have has : (start .unbounded first second n (num 0) (inf false)).CutsInside as := by
      decide +kernel
    exact ⟨hfirst, hsecond, hpow, _, ht, has, hagree as has, by decide +kernel, by decide +kernel⟩
  · intro first second n
    have habs : ∀ s : Extended ℚ, 0 ≤ s → Scalar.abs s = s := by
      intro s hs
      cases s with
      | num x => exact congrArg num (abs_of_nonneg (num_le_num.mp hs))
      | inf negative => cases negative with
        | false => rfl
        | true => exact absurd hs Bool.false_ne_true
      | nan => exact absurd hs Bool.false_ne_true
    obtain ⟨t, ht, hagree⟩ := hany (Extended ℚ) first second 1 (num 0) (inf false) rfl not_inf_lt
      habs (by decide +kernel)
    exact ⟨t, ht, hagree, by decide +kernel, by decide +kernel⟩
  · intro first second n
    have hfirst : first.Proper := Box.proper_map [(0, 0)] (by decide +kernel)
    have hsecond : second.Proper := Box.proper_map [(5, 5)] (by decide +kernel)
    have hround : IsRounding (roundTo 2) := isRounding_roundTo Nat.two_pos
    obtain ⟨t, ht, hagree⟩ := hrounded ℚ (roundTo 2) first second 1 (num 0) (inf false)
      (fun x hx => hround.zero.ge.trans (hround.mono hx)) rfl hfirst hsecond
    exact ⟨hfirst, hsecond, t, ht, hagree, by decide +kernel⟩

end Tracker

end

end MinkowskiBounds
