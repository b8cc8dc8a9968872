import MinkowskiBounds.Proofs.Axis.Extremes
import MinkowskiBounds.Proofs.Norm.Monotone

/-!
# Exact bounds over all axes

Where the separation along every axis is exact and the norm is monotone, the bounds between two boxes
are the least and the greatest distance between their points (`Space.extremes_bounds`).

No pair of points is outside them because it is not along any axis. Both are attained because the
points are chosen along each axis by itself: two lists of coordinates that attain the bound there.
-/

namespace MinkowskiBounds

open Extended

/-! ## Points of boxes -/

section

variable {α : Type} [Scalar α]

/-- The point has a coordinate in each interval of the box, and no others. -/
def Box.Holds (b : Box α) (x : List α) : Prop := List.Forall₂ Interval.Holds b.axes x

/-- The raised distances between the points of two boxes. -/
def Space.distances (space : Space α) (n : Norm α) (a b : Box α) : Set α :=
  {d | ∃ x y, a.Holds x ∧ b.Holds y ∧ space.distance n Scalar.infinity x y = d}

/-- A space sees the differences of two points axis by axis. -/
theorem Space.differences_eq {space : Space α} {dims : Nat} {x y : List α}
    (hx : x.length = dims) (hy : y.length = dims) :
    space.differences x y
      = List.zipWith Axis.wrap (space.axes dims) (List.zipWith (· - ·) x y) := by
  cases space with
  | unbounded =>
    have hline : ∀ δs : List α,
        List.zipWith Axis.wrap (List.replicate δs.length .line) δs = δs := by
      intro δs
      induction δs with
      | nil => rfl
      | cons δ δs ih => exact congrArg (δ :: ·) ih
    have hlen : (List.zipWith (· - ·) x y).length = dims := by
      rw [List.length_zipWith, hx, hy, Nat.min_self]
    rw [axes, ← hlen, hline]
    rfl
  | periodic torus =>
    rw [axes, List.zipWith_map_left, List.zipWith_comm]
    rfl

end

variable {K : Type} [Field K] [LinearOrder K] [FloorRing K] [Powers K]
  {As : List (Axis (Extended K))} {Is Js : List (Interval (Extended K))} {ss : List (K × K)}

/-! ## Lists of axes -/

/-- The pairs of numbers are the exact bounds of the intervals along each axis. -/
inductive AllExtremes : List (Axis (Extended K)) → List (Interval (Extended K)) →
    List (Interval (Extended K)) → List (K × K) → Prop
  | nil : AllExtremes [] [] [] []
  | cons {A I J s As Is Js ss} (head : A.Extremes I J s) (tail : AllExtremes As Is Js ss) :
    AllExtremes (A :: As) (I :: Is) (J :: Js) (s :: ss)

namespace AllExtremes

theorem separations (h : AllExtremes As Is Js ss) :
    List.zipWith (fun A P => A.separation P.1 P.2) As (Is.zip Js)
      = ss.map fun s => ⟨num s.1, num s.2⟩ := by
  induction h with
  | nil => rfl
  | cons head _ ih =>
    rw [List.zip_cons_cons, List.zipWith_cons_cons, ih, head.separation, List.map_cons]

/-- What is attained along each axis by itself is attained along all of them by two points. -/
theorem exists_points (h : AllExtremes As Is Js ss) {f : K × K → K}
    (hf : ∀ {A : Axis (Extended K)} {I J s}, A.Extremes I J s → num (f s) ∈ A.distances I J) :
    ∃ x y, List.Forall₂ Interval.Holds Is x ∧ List.Forall₂ Interval.Holds Js y ∧
      List.Forall₂ (fun δ d => Scalar.abs δ = num d)
        (List.zipWith Axis.wrap As (List.zipWith (· - ·) x y)) (ss.map f) := by
  induction h with
  | nil => exact ⟨[], [], .nil, .nil, .nil⟩
  | cons head _ ih =>
    obtain ⟨x, y, hx, hy, hds⟩ := ih
    obtain ⟨u, v, hu, hv, hd⟩ := hf head
    exact ⟨u :: x, v :: y, .cons hu hx, .cons hv hy, .cons hd hds⟩

variable [IsStrictOrderedRing K]

/-- Along each axis two points are between the bounds. -/
theorem exists_distances (h : AllExtremes As Is Js ss) {x y : List (Extended K)}
    (hx : List.Forall₂ Interval.Holds Is x) (hy : List.Forall₂ Interval.Holds Js y) :
    ∃ ds : List K,
      List.Forall₂ (fun δ d => Scalar.abs δ = num d)
        (List.zipWith Axis.wrap As (List.zipWith (· - ·) x y)) ds ∧
      List.Forall₂ (fun s d => 0 ≤ s.1 ∧ s.1 ≤ d ∧ d ≤ s.2) ss ds := by
  induction h generalizing x y with
  | nil =>
    cases hx
    cases hy
    exact ⟨[], .nil, .nil⟩
  | cons head _ ih =>
    cases hx with
    | cons hu hx =>
      cases hy with
      | cons hv hy =>
        obtain ⟨ds, hds, hbetween⟩ := ih hx hy
        obtain ⟨d, hd, hl, hg⟩ := exists_num_of_mem
          (head.least.2 (Axis.distance_mem_distances hu hv))
          (head.greatest.2 (Axis.distance_mem_distances hu hv))
        exact ⟨d :: ds, .cons hd hds, .cons ⟨head.nonneg.1, hl, hg⟩ hbetween⟩

theorem nonneg (h : AllExtremes As Is Js ss) : ∀ s ∈ ss, 0 ≤ s.1 ∧ 0 ≤ s.2 := by
  induction h with
  | nil =>
    intro s hs
    cases hs
  | cons head _ ih =>
    intro s hs
    rcases List.mem_cons.mp hs with rfl | hs
    · exact head.nonneg
    · exact ih s hs

/-- The bounds over all axes fold the least and the greatest distances along them. -/
theorem foldl_join (h : AllExtremes As Is Js ss) {n : Norm (Extended K)} {op : K → K → K}
    (hop : n.Folds op) :
    (List.zipWith (fun A P => A.separation P.1 P.2) As (Is.zip Js)).foldl n.join .zero
      = ⟨num ((ss.map Prod.fst).foldl op 0), num ((ss.map Prod.snd).foldl op 0)⟩ := by
  rw [h.separations]
  exact hop.foldl_join h.nonneg 0 0

/-- Where the intervals are in order along each axis, all bounds are exact. -/
theorem exists_of_orderly : ∀ {As : List (Axis (Extended K))}
    {Is Js : List (Interval (Extended K))}, As.length = Is.length → Js.length = Is.length →
    (∀ (i : Nat) (A : Axis (Extended K)) I J, As[i]? = some A → Is[i]? = some I → Js[i]? = some J →
      A.Orderly I J) →
    ∃ ss, AllExtremes As Is Js ss
  | [], [], [], _, _, _ => ⟨[], .nil⟩
  | A :: As, I :: Is, J :: Js, hA, hJ, h => by
    obtain ⟨s, hs⟩ := (h 0 A I J rfl rfl rfl).exists_extremes
    obtain ⟨ss, hss⟩ := exists_of_orderly (Nat.succ.inj hA) (Nat.succ.inj hJ)
      fun i B I' J' => h (i + 1) B I' J'
    exact ⟨s :: ss, .cons hs hss⟩

end AllExtremes

/-! ## Boxes -/

namespace Space

variable {space : Space (Extended K)} {a b : Box (Extended K)} {n : Norm (Extended K)}

/-- Along each axis the intervals of two boxes are in order. -/
def Orderly (space : Space (Extended K)) (a b : Box (Extended K)) : Prop :=
  ∀ (i : Nat) (A : Axis (Extended K)) (I J : Interval (Extended K)),
    (space.axes a.dims)[i]? = some A → a.axes[i]? = some I → b.axes[i]? = some J → A.Orderly I J

theorem orderly_unbounded (ha : a.Proper) (hb : b.Proper) : Space.unbounded.Orderly a b := by
  intro i A I J hA hI hJ
  obtain rfl : A = .line := List.eq_of_mem_replicate (List.mem_of_getElem? hA)
  obtain ⟨lo, hi, rfl, hle⟩ := ha I (List.mem_of_getElem? hI)
  obtain ⟨lo', hi', rfl, hle'⟩ := hb J (List.mem_of_getElem? hJ)
  exact .line hle hle'

/-- **Distances between points of boxes are folds of sizes**, one for each axis. -/
theorem distance_eq_foldl {op : K → K → K} (hop : n.Folds op) (hfit : space.Fits a b)
    {x y : List (Extended K)} {ds : List K} (hx : a.Holds x) (hy : b.Holds y)
    (hds : List.Forall₂ (fun δ d => Scalar.abs δ = num d)
      (List.zipWith Axis.wrap (space.axes a.dims) (List.zipWith (· - ·) x y)) ds) :
    space.distance n Scalar.infinity x y = num (ds.foldl op 0) := by
  rw [distance, differences_eq hx.length_eq.symm (hy.length_eq.symm.trans hfit.dims_eq.symm)]
  exact hop.sum_eq hds

variable [IsStrictOrderedRing K]

theorem Orderly.exists_allExtremes (h : space.Orderly a b) (hfit : space.Fits a b) :
    ∃ ss, AllExtremes (space.axes a.dims) a.axes b.axes ss :=
  AllExtremes.exists_of_orderly (length_axes hfit.checked) hfit.dims_eq.symm h

/-- Boxes in order have separations that are numbers and not negative. -/
theorem Orderly.exists_of_mem_separations (h : space.Orderly a b) (hfit : space.Fits a b) :
    ∀ s ∈ space.separations a b, ∃ l g : K, 0 ≤ l ∧ 0 ≤ g ∧ s = ⟨num l, num g⟩ := by
  obtain ⟨ss, hss⟩ := h.exists_allExtremes hfit
  intro s hs
  rw [Space.separations, hss.separations] at hs
  obtain ⟨r, hr, rfl⟩ := List.mem_map.mp hs
  obtain ⟨hl, hg⟩ := hss.nonneg r hr
  exact ⟨r.1, r.2, hl, hg, rfl⟩

theorem Orderly.narrow_first (h : space.Orderly a b) {cut : Cut (Extended K)}
    (hcut : ∀ I ∈ a.axes[cut.axis]?, I.lo ≤ cut.value ∧ cut.value ≤ I.hi) (half : Half) :
    space.Orderly (a.narrow half cut) b := by
  intro i A I' J hA hI' hJ
  rw [Box.dims_narrow] at hA
  obtain ⟨I, hI, rfl⟩ := Box.getElem?_narrow.mp hI'
  split
  · next hi =>
    subst hi
    exact (h _ A I J hA hI hJ).part_first (hcut I hI).1 (hcut I hI).2 half
  · exact h i A I J hA hI hJ

theorem Orderly.narrow_second (h : space.Orderly a b) {cut : Cut (Extended K)}
    (hcut : ∀ J ∈ b.axes[cut.axis]?, J.lo ≤ cut.value ∧ cut.value ≤ J.hi) (half : Half) :
    space.Orderly a (b.narrow half cut) := by
  intro i A I J' hA hI hJ'
  obtain ⟨J, hJ, rfl⟩ := Box.getElem?_narrow.mp hJ'
  split
  · next hi =>
    subst hi
    exact (h _ A I J hA hI hJ).part_second (hcut J hJ).1 (hcut J hJ).2 half
  · exact h i A I J hA hI hJ

/-- Between boxes in order the least bound is not below zero. -/
theorem least_bounds_nonneg (hn : n.IsMonotone) (hzero : 0 ≤ n.accumulate (num 0) (num 0))
    (hfit : space.Fits a b) (h : space.Orderly a b) :
    0 ≤ ((space.separations a b).foldl n.join .zero).least := by
  obtain ⟨op, hop⟩ := hn.exists_folds
  obtain ⟨ss, hss⟩ := h.exists_allExtremes hfit
  rw [hop.accumulate, abs_zero, ← num_zero, num_le_num] at hzero
  rw [Space.separations, hss.foldl_join hop, ← num_zero, num_le_num]
  refine hop.foldl_nonneg hzero ?_
  intro l hl
  obtain ⟨s, hs, rfl⟩ := List.mem_map.mp hl
  exact (hss.nonneg s hs).1

/-- **The bounds between boxes in order are exact**: no distance between two of their points is
outside them, and each is attained. -/
theorem extremes_bounds (hn : n.IsMonotone) (hfit : space.Fits a b) (h : space.Orderly a b) :
    IsLeast (space.distances n a b) ((space.separations a b).foldl n.join .zero).least ∧
      IsGreatest (space.distances n a b) ((space.separations a b).foldl n.join .zero).greatest := by
  obtain ⟨op, hop⟩ := hn.exists_folds
  obtain ⟨ss, hss⟩ := h.exists_allExtremes hfit
  rw [Space.separations, hss.foldl_join hop]
  refine ⟨⟨?_, ?_⟩, ?_, ?_⟩
  · obtain ⟨x, y, hx, hy, hds⟩ := hss.exists_points (f := Prod.fst) fun hs => hs.least.1
    exact ⟨x, y, hx, hy, distance_eq_foldl hop hfit hx hy hds⟩
  · rintro _ ⟨x, y, hx, hy, rfl⟩
    obtain ⟨ds, hds, hbetween⟩ := hss.exists_distances hx hy
    rw [distance_eq_foldl hop hfit hx hy hds]
    refine num_le_num.mpr (Norm.foldl_le_foldl hop.mono ?_ le_rfl)
    exact List.forall₂_map_left_iff.mpr (hbetween.imp fun _ _ h => ⟨h.1, h.2.1⟩)
  · obtain ⟨x, y, hx, hy, hds⟩ := hss.exists_points (f := Prod.snd) fun hs => hs.greatest.1
    exact ⟨x, y, hx, hy, distance_eq_foldl hop hfit hx hy hds⟩
  · rintro _ ⟨x, y, hx, hy, rfl⟩
    obtain ⟨ds, hds, hbetween⟩ := hss.exists_distances hx hy
    rw [distance_eq_foldl hop hfit hx hy hds]
    refine num_le_num.mpr (Norm.foldl_le_foldl hop.mono ?_ le_rfl)
    exact List.forall₂_map_right_iff.mpr (hbetween.flip.imp fun _ _ h => ⟨h.1.trans h.2.1, h.2.2⟩)

end Space

end MinkowskiBounds
