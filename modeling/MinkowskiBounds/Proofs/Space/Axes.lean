import Mathlib.Data.List.Induction
import MinkowskiBounds.Box.Split
import MinkowskiBounds.Space

/-!
# Spaces, axis by axis

A space is a list of axes, each an endless line or a circle. Read this way, the bounds between two
boxes are a fold over the list of their separations, and narrowing a box changes one entry of it.
No law of the arithmetic is used.

* `Space.bounds_eq` — the bounds are the fold of the separations, and are always found
* `Space.separations_eq_set` — boxes that differ along one axis have one separation in common less
-/

namespace MinkowskiBounds

variable {α : Type} [Scalar α]

/-- One axis of a space. -/
inductive Axis (α : Type) where
  /-- An endless line. -/
  | line
  /-- An axis that closes up. -/
  | circle (c : Circle α)

namespace Axis

/-- The bounds between two intervals along the axis. -/
def separation : Axis α → Interval α → Interval α → Bounds α
  | .line, I, J => I.separation J
  | .circle c, I, J => c.separation I J

/-- A difference of coordinates as the axis sees it. -/
def wrap : Axis α → α → α
  | .line, δ => δ
  | .circle c, δ => c.wrap δ

end Axis

/-- Takes the separation along one more axis into raised bounds. -/
def Norm.join (n : Norm α) (total s : Bounds α) : Bounds α :=
  match n with
  | .chebyshev => total.max s
  | _ => total + s.map n.term

/-- The norm adds up differences or their squares, and takes no powers. -/
def Norm.IsElementary (n : Norm α) : Prop := n = .euclidean ∨ n = .manhattan

omit [Scalar α] in
theorem Norm.IsElementary.ne_chebyshev {n : Norm α} (h : n.IsElementary) : n ≠ .chebyshev := by
  rcases h with rfl | rfl
  · nofun
  · nofun

namespace Space

/-- The axes along which boxes with `dims` axes lie. -/
def axes : Space α → Nat → List (Axis α)
  | .unbounded, dims => List.replicate dims .line
  | .periodic torus, _ => torus.axes.map .circle

/-- The separations of two boxes along all axes. -/
def separations (space : Space α) (a b : Box α) : List (Bounds α) :=
  List.zipWith (fun A P => A.separation P.1 P.2) (space.axes a.dims) (a.axes.zip b.axes)

/-- The space can measure the two boxes. -/
structure Fits (space : Space α) (a b : Box α) : Prop where
  dims_eq : a.dims = b.dims
  checked : space.checkDims a.dims = .ok ()

/-! ## Reading one axis -/

omit [Scalar α] in
theorem length_axes {space : Space α} {dims : Nat} (h : space.checkDims dims = .ok ()) :
    (space.axes dims).length = dims := by
  cases space with
  | unbounded => simp [axes]
  | periodic torus =>
    rw [axes, List.length_map]
    exact checkDims_eq_ok_iff.mp h torus rfl

theorem getElem?_separations {space : Space α} {a b : Box α} {i : Nat} {s : Bounds α} :
    (space.separations a b)[i]? = some s ↔ ∃ A I J, (space.axes a.dims)[i]? = some A ∧
      a.axes[i]? = some I ∧ b.axes[i]? = some J ∧ A.separation I J = s := by
  rw [separations, List.getElem?_zipWith_eq_some]
  constructor
  · rintro ⟨A, ⟨I, J⟩, hA, hP, hs⟩
    obtain ⟨hI, hJ⟩ := List.getElem?_zip_eq_some.mp hP
    exact ⟨A, I, J, hA, hI, hJ, hs⟩
  · rintro ⟨A, I, J, hA, hI, hJ, hs⟩
    exact ⟨A, (I, J), hA, List.getElem?_zip_eq_some.mpr ⟨hI, hJ⟩, hs⟩

/-- In unbounded space boxes are separated pairwise, interval by interval. -/
theorem separations_unbounded (a b : Box α) :
    Space.unbounded.separations a b = List.zipWith Interval.separation a.axes b.axes := by
  refine List.ext_getElem? fun i => Option.ext fun s => ?_
  rw [getElem?_separations, List.getElem?_zipWith_eq_some]
  constructor
  · rintro ⟨A, I, J, hA, hI, hJ, rfl⟩
    obtain rfl : A = .line := List.eq_of_mem_replicate (List.mem_of_getElem? hA)
    exact ⟨I, J, hI, hJ, rfl⟩
  · rintro ⟨I, J, hI, hJ, rfl⟩
    have hi : i < a.dims := (List.getElem?_eq_some_iff.mp hI).1
    exact ⟨.line, I, J, List.getElem?_replicate_of_lt hi, hI, hJ, rfl⟩

theorem length_separations {space : Space α} {a b : Box α} (h : space.Fits a b) :
    (space.separations a b).length = a.dims := by
  have hb : b.axes.length = a.dims := h.dims_eq.symm
  rw [separations, List.length_zipWith, List.length_zip, length_axes h.checked, hb]
  simp [Box.dims]

/-- The separation along an axis is the one that the list has there. -/
theorem separation_of_getElem? {space : Space α} {a b : Box α} {i : Nat} {s : Bounds α}
    (h : (space.separations a b)[i]? = some s) : space.separation a b i = .ok s := by
  obtain ⟨A, I, J, hA, hI, hJ, hs⟩ := getElem?_separations.mp h
  rw [separation, Box.interval_eq_ok_iff.mpr hI, Box.interval_eq_ok_iff.mpr hJ]
  show space.separate i I J = .ok s
  cases space with
  | unbounded =>
    have hA : A = .line := List.eq_of_mem_replicate (List.mem_of_getElem? hA)
    subst hA
    exact congrArg Except.ok hs
  | periodic torus =>
    rw [axes, List.getElem?_map, Option.map_eq_some_iff] at hA
    obtain ⟨c, hc, hA⟩ := hA
    subst hA
    rw [separate, Torus.circle_of_getElem? hc]
    exact congrArg Except.ok hs

/-- What an axis contributes is the raised separation along it. -/
theorem axisBounds_of_getElem? {space : Space α} {n : Norm α} {a b : Box α} {i : Nat}
    {s : Bounds α} (h : (space.separations a b)[i]? = some s) :
    space.axisBounds n a b i = .ok (s.map n.term) := by
  rw [axisBounds, separation_of_getElem? h]
  rfl

/-! ## Folding over all axes -/

/-- A fold that looks its operands up by index is the fold over the list of them. -/
theorem foldlM_range_eq {β γ : Type} (op : β → γ → β) {f : Nat → Except Failure γ} (z : β) :
    ∀ {L : List γ}, (∀ i c, L[i]? = some c → f i = .ok c) →
      (List.range L.length).foldlM (fun total i => return op total (← f i)) z
        = .ok (L.foldl op z) := by
  intro L
  induction L using List.reverseRecOn with
  | nil => intro _; rfl
  | append_singleton L c ih =>
    intro h
    have hprefix : ∀ i d, L[i]? = some d → f i = .ok d := by
      intro i d hd
      refine h i d ?_
      rw [List.getElem?_append_left (List.getElem?_eq_some_iff.mp hd).1, hd]
    have hlast : f L.length = .ok c := h _ _ (by simp)
    rw [List.length_append, List.length_singleton, List.range_succ, List.foldlM_append,
      ih hprefix, List.foldl_append]
    simp [bind, Except.bind, hlast, pure, Except.pure]

/-- **The bounds between two boxes that the space can measure** are the fold of their separations. -/
theorem bounds_eq {space : Space α} {n : Norm α} {a b : Box α} (h : space.Fits a b) :
    space.bounds n a b = .ok ((space.separations a b).foldl n.join .zero) := by
  have hc := foldlM_range_eq Bounds.max Bounds.zero
    (fun i s (hs : (space.separations a b)[i]? = some s) => separation_of_getElem? hs)
  have hsum := foldlM_range_eq (fun total s => total + s) Bounds.zero
    (L := (space.separations a b).map (·.map n.term)) (f := space.axisBounds n a b) (by
      intro i s hs
      rw [List.getElem?_map, Option.map_eq_some_iff] at hs
      obtain ⟨s, hs, rfl⟩ := hs
      exact axisBounds_of_getElem? hs)
  rw [List.length_map, List.foldl_map] at hsum
  rw [length_separations h] at hc hsum
  cases n with
  | chebyshev => exact hc
  | euclidean => exact hsum
  | manhattan => exact hsum
  | general p => exact hsum

/-! ## Boxes that differ along one axis -/

/-- Where two pairs of boxes differ along one axis only, so do their separations. -/
theorem separations_eq_set {space : Space α} {a b a' b' : Box α} {axis : Nat} {s : Bounds α}
    (hfit : space.Fits a b) (hfit' : space.Fits a' b') (hdims : a'.dims = a.dims)
    (ha : ∀ i, i ≠ axis → a'.axes[i]? = a.axes[i]?) (hb : ∀ i, i ≠ axis → b'.axes[i]? = b.axes[i]?)
    (hs : (space.separations a' b')[axis]? = some s) :
    space.separations a' b' = (space.separations a b).set axis s := by
  have hlt : axis < (space.separations a b).length := by
    rw [length_separations hfit, ← hdims, ← length_separations hfit']
    exact (List.getElem?_eq_some_iff.mp hs).1
  apply List.ext_getElem?
  intro i
  by_cases hi : axis = i
  · subst hi
    rw [hs, List.getElem?_set_self hlt]
  · rw [List.getElem?_set_ne hi]
    apply Option.ext
    intro r
    rw [getElem?_separations, getElem?_separations, hdims, ha i (Ne.symm hi), hb i (Ne.symm hi)]

end Space

end MinkowskiBounds
