import MinkowskiBounds.Box

/-!
# Splitting boxes

A `Cut` is a plane across one axis. It splits a box into a lower half, which keeps what is below the
plane, and an upper half. The value need not lie inside the box.

## Contents

* `Cut`, `Half`, `HasCut` — a plane, a side of it, and tree nodes that carry one
* `Box.narrow` — one half of a box
* `Box.split` — both halves, or the failure to find the axis
* `Box.halvings` — the cuts that halve a box again and again, cycling through its axes

## Termination

`Box.halvingsFrom` recurses on the number of cuts still to make.
-/

namespace MinkowskiBounds

variable {α : Type} [Scalar α]

/-- A plane across `axis`, at `value` along it. -/
structure Cut (α : Type) where
  axis : Nat
  value : α
deriving Repr

/-- The two parts that a cut leaves. -/
inductive Half where
  /-- What is below the cut. -/
  | lower
  /-- What is above the cut. -/
  | upper
deriving DecidableEq, Repr

/-- Values that carry a cut, such as the inner nodes of a search tree. -/
class HasCut (ν : Type) (α : outParam Type) where
  /-- The cut that separates the children of the node. -/
  cut : ν → Cut α

instance : HasCut (Cut α) α where
  cut c := c

/-- The part of an interval below or above a value. -/
def Interval.part (I : Interval α) (value : α) : Half → Interval α
  | .lower => { I with hi := value }
  | .upper => { I with lo := value }

namespace Box

/-- One half of a box; a cut across an axis that the box lacks leaves it as it is. -/
def narrow (b : Box α) (half : Half) (cut : Cut α) : Box α :=
  ⟨b.axes.modify cut.axis (·.part cut.value half)⟩

/-- Puts an interval in place of the one along an axis. -/
def setInterval (b : Box α) (axis : Nat) (I : Interval α) : Box α := ⟨b.axes.set axis I⟩

/-- The lower and the upper half of a box. -/
def split (b : Box α) (cut : Cut α) : Except Failure (Box α × Box α) := do
  let _ ← b.interval cut.axis
  return (b.narrow .lower cut, b.narrow .upper cut)

/-! ## Halving -/

/-- The cuts through the middle that halve a box `count` times, the first across `level` modulo the
number of axes, each later one across the next axis of the lower half left by the one before. -/
def halvingsFrom (b : Box α) (level : Nat) : Nat → Except Failure (List (Cut α))
  | 0 => .ok []
  | count + 1 => do
    if b.dims = 0 then throw .noAxisToHalve
    let I ← b.interval (level % b.dims)
    let cut : Cut α := ⟨level % b.dims, (I.lo + I.hi) / Scalar.two⟩
    return cut :: (← (b.narrow .lower cut).halvingsFrom (level + 1) count)

/-- The cuts that halve a box `depth` times and keep the lower half, as a search tree would. -/
def halvings (b : Box α) (depth : Nat) : Except Failure (List (Cut α)) := b.halvingsFrom 0 depth

/-! ## Small facts -/

omit [Scalar α] in
@[simp] theorem dims_narrow (b : Box α) (half : Half) (cut : Cut α) :
    (b.narrow half cut).dims = b.dims := by
  simp [narrow, dims]

omit [Scalar α] in
@[simp] theorem dims_setInterval (b : Box α) (axis : Nat) (I : Interval α) :
    (b.setInterval axis I).dims = b.dims := by
  simp [setInterval, dims]

omit [Scalar α] in
/-- Narrowing a box changes the interval along one axis. -/
theorem getElem?_narrow {b : Box α} {half : Half} {cut : Cut α} {i : Nat} {J : Interval α} :
    (b.narrow half cut).axes[i]? = some J ↔
      ∃ I, b.axes[i]? = some I ∧ (if cut.axis = i then I.part cut.value half else I) = J := by
  rw [narrow, List.getElem?_modify, Option.map_eq_map, Option.map_eq_some_iff]

omit [Scalar α] in
/-- What holds of the intervals along all axes, and of the part that a cut leaves, holds of the
narrowed box. -/
theorem forall_getElem?_narrow {P : Nat → Interval α → Prop} {b : Box α} {half : Half} {cut : Cut α}
    (h : ∀ i I, b.axes[i]? = some I → P i I)
    (hpart : ∀ I, b.axes[cut.axis]? = some I → P cut.axis (I.part cut.value half)) :
    ∀ i I, (b.narrow half cut).axes[i]? = some I → P i I := by
  intro i I' hI'
  obtain ⟨I, hI, rfl⟩ := getElem?_narrow.mp hI'
  split
  · next hi =>
    subst hi
    exact hpart I hI
  · exact h i I hI

omit [Scalar α] in
theorem forall_mem_narrow {P : Interval α → Prop} {b : Box α} {half : Half} {cut : Cut α}
    (h : ∀ I ∈ b.axes, P I)
    (hpart : ∀ I, b.axes[cut.axis]? = some I → P (I.part cut.value half)) :
    ∀ I ∈ (b.narrow half cut).axes, P I := by
  intro I hI
  obtain ⟨i, hi⟩ := List.mem_iff_getElem?.mp hI
  exact forall_getElem?_narrow (P := fun _ => P) (fun i J hJ => h J (List.mem_of_getElem? hJ)) hpart
    i I hi

omit [Scalar α] in
/-- **A box can be split exactly along its own axes.** -/
theorem split_of_lt {b : Box α} {cut : Cut α} (h : cut.axis < b.dims) :
    b.split cut = .ok (b.narrow .lower cut, b.narrow .upper cut) := by
  obtain ⟨I, hI⟩ := exists_interval h
  rw [split, hI]
  rfl

omit [Scalar α] in
/-- Putting back the interval that a half was narrowed from gives the whole box again. -/
theorem setInterval_narrow {b : Box α} {half : Half} {cut : Cut α} {I : Interval α}
    (h : b.interval cut.axis = .ok I) : (b.narrow half cut).setInterval cut.axis I = b := by
  obtain ⟨axes⟩ := b
  rw [interval_eq_ok_iff] at h
  have hset : ∀ (f : Interval α → Interval α) (Is : List (Interval α)) (i : Nat),
      Is[i]? = some I → (Is.modify i f).set i I = Is := by
    intro f Is
    induction Is with
    | nil => intro i hi; simp at hi
    | cons J Js ih =>
      intro i hi
      cases i with
      | zero => simp at hi; simp [hi]
      | succ i => simp at hi; simp [ih i hi]
  simp only [narrow, setInterval, hset _ axes cut.axis h]

end Box

end MinkowskiBounds
