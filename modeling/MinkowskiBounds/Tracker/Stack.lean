import MinkowskiBounds.Box.Split

/-!
# The stack of a tracker

Each push leaves a `Frame` that says what to put back. The stack has room for a certain number of
frames, its capacity, and doubles it when a frame is to be pushed and there is no room left.
-/

namespace MinkowskiBounds

variable {α : Type}

/-- The two boxes that a tracker compares. -/
inductive Side where
  | first
  | second
deriving DecidableEq, Repr

/-- What a push changed, as it was before. -/
structure Frame (α : Type) where
  /-- The box that was narrowed. -/
  side : Side
  /-- The axis along which it was narrowed. -/
  axis : Nat
  /-- The interval that the box had along that axis. -/
  interval : Interval α
  /-- The bounds that the tracker had. -/
  bounds : Bounds α
deriving Repr

/-- Frames, the latest first, and the number of them that there is room for. -/
structure FrameStack (α : Type) where
  frames : List (Frame α)
  capacity : Nat
deriving Repr

namespace FrameStack

/-- The room that a stack starts with, and the least room it grows to. -/
def initialCapacity : Nat := 8

/-- The stack of a new tracker. -/
def empty : FrameStack α := ⟨[], initialCapacity⟩

/-- The number of frames. -/
def depth (s : FrameStack α) : Nat := s.frames.length

/-- The capacity to grow to before the next push, where there is no room left. -/
def growth? (s : FrameStack α) : Option Nat :=
  if s.depth = s.capacity then some (max (2 * s.capacity) initialCapacity) else none

/-- Makes room for one more frame. -/
def reserve (s : FrameStack α) : FrameStack α :=
  { s with capacity := s.growth?.getD s.capacity }

/-- Puts a frame on the stack, in room made before. -/
def push (s : FrameStack α) (f : Frame α) : FrameStack α := { s with frames := f :: s.frames }

/-- A stack with the same frames and no room for more. -/
def trimmed (s : FrameStack α) : FrameStack α := { s with capacity := s.depth }

@[simp] theorem frames_reserve (s : FrameStack α) : s.reserve.frames = s.frames := rfl

@[simp] theorem depth_push (s : FrameStack α) (f : Frame α) : (s.push f).depth = s.depth + 1 := rfl

/-- **A stack within its capacity has room for a frame once it was reserved.** -/
theorem depth_lt_capacity_reserve {s : FrameStack α} (h : s.depth ≤ s.capacity) :
    s.depth < s.reserve.capacity := by
  unfold reserve growth? initialCapacity
  split
  · show _ < max _ _
    omega
  · show _ < s.capacity
    omega

end FrameStack

end MinkowskiBounds
