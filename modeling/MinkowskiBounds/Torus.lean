import MinkowskiBounds.Circle
import MinkowskiBounds.Failure

/-!
# Tori

A torus is a box whose axes close up: one circle per axis. Its sizes, the periods of all axes
followed by the half periods of all axes, are the form in which it is written down and read back.

## Contents

* `Torus.ofPeriods`, `Torus.ofSizes` — a torus from its periods, or from all of its sizes
* `Torus.sizes`, `Torus.full`, `Torus.half` — its sizes and single ones of them
* `Torus.circle` — the circle along one axis, or the failure to find that axis
-/

namespace MinkowskiBounds

variable {α : Type} [Scalar α]

/-- One circle per axis. -/
structure Torus (α : Type) where
  axes : List (Circle α)
deriving Repr

/-- Two tori are equal when they have equally many axes and equal circles on each. -/
instance : BEq (Torus α) where
  beq s t := s.axes == t.axes

namespace Torus

/-! ## Making tori -/

/-- Fails at the first period that is not above zero, which one that cannot be compared never is. -/
def checkPeriods (periods : List α) : Except Failure Unit :=
  match periods.findIdx? (fun full => ¬ 0 < full) with
  | some axis => .error (.periodNotPositive axis)
  | none => .ok ()

/-- The torus with the given periods. -/
def ofPeriods (periods : List α) : Except Failure (Torus α) := do
  checkPeriods periods
  return ⟨periods.map Circle.ofPeriod⟩

/-- The torus with the given periods and half periods; the half periods are taken on trust. -/
def ofSizes (sizes : List α) : Except Failure (Torus α) := do
  if sizes.length % 2 ≠ 0 then throw (.oddSizeCount sizes.length)
  let (fulls, halves) := sizes.splitAt (sizes.length / 2)
  checkPeriods fulls
  return ⟨List.zipWith Circle.mk fulls halves⟩

/-! ## Reading tori -/

/-- The number of axes. -/
def dims (t : Torus α) : Nat := t.axes.length

/-- The periods of all axes, then the half periods of all axes. -/
def sizes (t : Torus α) : List α := t.axes.map Circle.full ++ t.axes.map Circle.half

/-- The size at a place in `sizes`. -/
def size (t : Torus α) (place : Nat) : Except Failure α :=
  match t.sizes[place]? with
  | some s => .ok s
  | none => .error (.indexOutOfRange t.sizes.length place)

/-- The period of an axis, read as the size at that place. -/
def full (t : Torus α) (axis : Nat) : Except Failure α := t.size axis

/-- The half period of an axis, read as the size that many places after the periods. -/
def half (t : Torus α) (axis : Nat) : Except Failure α := t.size (axis + t.dims)

/-- The circle along an axis. -/
def circle (t : Torus α) (axis : Nat) : Except Failure (Circle α) := do
  let full ← t.full axis
  let half ← t.half axis
  return ⟨full, half⟩

/-! ## Small facts -/

theorem checkPeriods_then_eq_ok_iff {periods : List α} {s t : Torus α} :
    (do checkPeriods periods; return s) = .ok t ↔ (∀ full ∈ periods, 0 < full) ∧ t = s := by
  unfold checkPeriods
  cases hi : periods.findIdx? (fun full => ¬ 0 < full) with
  | some i =>
    obtain ⟨hlt, hnot, -⟩ := List.findIdx?_eq_some_iff_getElem.mp hi
    constructor
    · intro h
      cases h
    · rintro ⟨hall, -⟩
      exact absurd (hall _ (List.getElem_mem hlt)) (by simpa using hnot)
  | none =>
    have hall : ∀ full ∈ periods, 0 < full := by
      intro full hfull
      simpa using List.findIdx?_eq_none_iff.mp hi full hfull
    constructor
    · intro h
      cases h
      exact ⟨hall, rfl⟩
    · rintro ⟨-, rfl⟩
      rfl

/-- **A torus is made from its periods exactly when all of them are above zero.** -/
theorem ofPeriods_eq_ok_iff {periods : List α} {t : Torus α} :
    ofPeriods periods = .ok t ↔
      (∀ full ∈ periods, 0 < full) ∧ t = ⟨periods.map Circle.ofPeriod⟩ :=
  checkPeriods_then_eq_ok_iff

/-- **A torus is made from its sizes exactly when they are evenly many and the periods are above
zero**, whatever the half periods are. -/
theorem ofSizes_eq_ok_iff {sizes : List α} {t : Torus α} :
    ofSizes sizes = .ok t ↔ sizes.length % 2 = 0 ∧
      (∀ full ∈ sizes.take (sizes.length / 2), 0 < full) ∧
      t = ⟨List.zipWith Circle.mk (sizes.take (sizes.length / 2))
        (sizes.drop (sizes.length / 2))⟩ := by
  unfold ofSizes
  by_cases hodd : sizes.length % 2 ≠ 0
  · rw [if_pos hodd]
    constructor
    · intro h
      cases h
    · rintro ⟨heven, -⟩
      exact absurd heven hodd
  · rw [if_neg hodd, List.splitAt_eq, ← checkPeriods_then_eq_ok_iff]
    exact (and_iff_right (Decidable.not_not.mp hodd)).symm

omit [Scalar α] in
/-- There are two sizes per axis. -/
theorem length_sizes (t : Torus α) : t.sizes.length = 2 * t.dims := by
  simp [sizes, dims]
  omega

omit [Scalar α] in
/-- The sizes that are read for an axis are those of the circle there. -/
theorem sizes_of_getElem? {t : Torus α} {axis : Nat} {c : Circle α}
    (h : t.axes[axis]? = some c) : t.full axis = .ok c.full ∧ t.half axis = .ok c.half := by
  have hlt : axis < t.axes.length := (List.getElem?_eq_some_iff.mp h).1
  have hf : t.sizes[axis]? = some c.full := by
    rw [sizes, List.getElem?_append_left (by rw [List.length_map]; exact hlt), List.getElem?_map, h]
    rfl
  have hh : t.sizes[axis + t.dims]? = some c.half := by
    rw [sizes, List.getElem?_append_right (by simp [dims]), List.length_map, dims,
      Nat.add_sub_cancel, List.getElem?_map, h]
    rfl
  rw [full, half, size, size, hf, hh]
  exact ⟨rfl, rfl⟩

omit [Scalar α] in
/-- **The circle along an axis is the one that the torus has there.** -/
theorem circle_of_getElem? {t : Torus α} {axis : Nat} {c : Circle α}
    (h : t.axes[axis]? = some c) : t.circle axis = .ok c := by
  obtain ⟨hfull, hhalf⟩ := sizes_of_getElem? h
  rw [circle, hfull, hhalf]
  rfl

omit [Scalar α] in
/-- There is a circle along each axis below the number of axes. -/
theorem exists_circle {t : Torus α} {axis : Nat} (h : axis < t.dims) :
    ∃ c, t.circle axis = .ok c :=
  ⟨_, circle_of_getElem? (List.getElem?_eq_getElem h)⟩

end Torus

end MinkowskiBounds
