import MinkowskiBounds.Space
import MinkowskiBounds.Tracker.Event
import MinkowskiBounds.Tracker.Stack

/-!
# Trackers

A tracker holds two boxes and bounds on the distance between their points while a search descends
into parts of them and returns. A push narrows one box along one axis and corrects only what that
axis contributes; a pop puts back what the push saved, so that no arithmetic has to be undone.

## Contents

* `Tracker.build` — a tracker for two boxes in a space
* `Tracker.push` — narrows a box
* `Tracker.tryPop`, `Tracker.pop` — undo the latest push
* `Tracker.fork` — a tracker of its own that starts from the same state
* `Tracker.distance` — the raised distance between two points, up to the tracker's limit

## State at a failure

A push that fails leaves the state that it had reached (`Tracker.proceed`): room on the stack is
made before the axis is looked up, and stays. A pop that fails has changed nothing.
-/

namespace MinkowskiBounds

variable {α : Type} [Scalar α]

/-- Two boxes, what is known of the distance between them, and how to go back. -/
structure Tracker (α : Type) where
  /-- Where the boxes lie. -/
  space : Space α
  /-- How distances are measured. -/
  norm : Norm α
  /-- The factor for comparisons that may be off by the tracker's tolerance. -/
  factor : α
  /-- The raised distance beyond which distances are of no interest. -/
  limit : α
  /-- The first box, as narrowed so far. -/
  first : Box α
  /-- The second box, as narrowed so far. -/
  second : Box α
  /-- Raised bounds on the distance between a point of each box. -/
  bounds : Bounds α
  /-- What the pushes still to be undone have changed. -/
  stack : FrameStack α

/-- What came of a piece of work, and what was reported on the way. -/
structure Report (α β : Type) where
  result : Except Failure β
  events : List (Event α)

namespace Tracker

/-! ## Building -/

/-- Fails where the boxes cannot be compared in the space, and says so in an event. -/
def checkPair (space : Space α) (first second : Box α) : Report α Unit :=
  if first.dims ≠ second.dims then
    ⟨.error (.dimensionMismatch first.dims second.dims),
      [.dimensionMismatch first.dims second.dims]⟩
  else
    match space.checkDims first.dims with
    | .error cause => ⟨.error cause, [.unmeasurable cause]⟩
    | .ok () => ⟨.ok (), []⟩

/--
A tracker for two boxes.

The tolerance `ε` and the limit are given for distances; the tracker holds the factor and the raised
limit that they amount to.
-/
def build (space : Space α) (first second : Box α) (n : Norm α) (ε limit : α) :
    Report α (Tracker α) :=
  match checkPair space first second with
  | ⟨.error cause, events⟩ => ⟨.error cause, .building first.dims :: events⟩
  | ⟨.ok (), events⟩ =>
    match space.bounds n first second with
    | .error cause => ⟨.error cause, .building first.dims :: events⟩
    | .ok bounds =>
      ⟨.ok { space, norm := n, factor := n.tolerance ε, limit := n.raise limit, first, second,
             bounds, stack := .empty },
        .building first.dims :: (events ++ [.initialBounds bounds])⟩

/-! ## Reading -/

/-- One of the two boxes. -/
def box (t : Tracker α) : Side → Box α
  | .first => t.first
  | .second => t.second

/-- The number of pushes still to be undone. -/
def depth (t : Tracker α) : Nat := t.stack.depth

/-- The number of pushes that there is room for. -/
def capacity (t : Tracker α) : Nat := t.stack.capacity

/-- What one axis contributes to the bounds. -/
def share (t : Tracker α) (axis : Nat) : Except Failure (Bounds α) :=
  t.space.axisBounds t.norm t.first t.second axis

/-- The raised distance between two points; a result above the limit only says that it is above. -/
def distance (t : Tracker α) (x y : List α) : α := t.space.distance t.norm t.limit x y

/-! ## Pushing -/

/-- Changes one of the two boxes. -/
def mapBox (t : Tracker α) (side : Side) (f : Box α → Box α) : Tracker α :=
  match side with
  | .first => { t with first := f t.first }
  | .second => { t with second := f t.second }

/-- Narrows one of the two boxes to a half of itself. -/
def narrow (t : Tracker α) (side : Side) (half : Half) (cut : Cut α) : Tracker α :=
  t.mapBox side (·.narrow half cut)

/-- Makes room for one more frame. -/
def reserve (t : Tracker α) : Tracker α := { t with stack := t.stack.reserve }

/-- Puts on the stack what narrowing a box along an axis is going to change. -/
def save (t : Tracker α) (side : Side) (axis : Nat) (interval : Interval α) : Tracker α :=
  { t with stack := t.stack.push ⟨side, axis, interval, t.bounds⟩ }

/-- Goes on with what was looked up; where that failed, stops in the state reached so far. -/
def proceed {β : Type} (t : Tracker α) (found : Except Failure β)
    (next : β → Except Failure Unit × Tracker α) : Except Failure Unit × Tracker α :=
  match found with
  | .ok b => next b
  | .error cause => (.error cause, t)

/-- Narrows a box and measures both boxes again over all axes. -/
def narrowAndMeasure (t : Tracker α) (side : Side) (half : Half) (cut : Cut α) :
    Except Failure Unit × Tracker α :=
  let t := t.narrow side half cut
  t.proceed (t.space.chebyshevBounds t.first t.second) fun bounds => (.ok (), { t with bounds })

/-- Takes what an axis contributes out of the bounds, narrows a box along it, and adds what the axis
contributes from then on. -/
def narrowAndCorrect (t : Tracker α) (side : Side) (half : Half) (cut : Cut α) :
    Except Failure Unit × Tracker α :=
  t.proceed (t.share cut.axis) fun before =>
    let t := { t with bounds := t.bounds - before }.narrow side half cut
    t.proceed (t.share cut.axis) fun after => (.ok (), { t with bounds := t.bounds + after })

/--
Narrows one box to a half of itself, as when a search goes down to a child of the node whose points
the box holds.

Chebyshev bounds are no sum over the axes, so they are measured again; all others are corrected.
-/
def push (t : Tracker α) (side : Side) (half : Half) (cut : Cut α) :
    Except Failure Unit × Tracker α :=
  let t := t.reserve
  t.proceed ((t.box side).interval cut.axis) fun interval =>
    let t := t.save side cut.axis interval
    match t.norm with
    | .chebyshev => t.narrowAndMeasure side half cut
    | _ => t.narrowAndCorrect side half cut

/-! ## Popping -/

/-- Puts back what a frame has saved. -/
def restore (t : Tracker α) (f : Frame α) : Tracker α :=
  { t.mapBox f.side (·.setInterval f.axis f.interval) with bounds := f.bounds }

/-- Undoes the latest push. -/
def tryPop (t : Tracker α) : Except Failure (Tracker α) :=
  match t.stack.frames with
  | [] => .error .underflow
  | f :: frames => .ok ({ t with stack := { t.stack with frames } }.restore f)

/-- Undoes the latest push, which the caller holds to exist. -/
def pop (t : Tracker α) : Except Failure (Tracker α) :=
  match t.tryPop with
  | .ok t' => .ok t'
  | .error _ => .error .unmatchedPop

/-! ## Forking -/

/-- A tracker with the same state; its stack has no room to spare. -/
def fork (t : Tracker α) : Tracker α := { t with stack := t.stack.trimmed }

/-! ## Small facts -/

omit [Scalar α] in
@[simp] theorem proceed_ok {β : Type} (t : Tracker α) (b : β)
    (next : β → Except Failure Unit × Tracker α) : t.proceed (.ok b) next = next b := rfl

omit [Scalar α] in
@[simp] theorem proceed_error {β : Type} (t : Tracker α) (cause : Failure)
    (next : β → Except Failure Unit × Tracker α) :
    t.proceed (.error cause) next = (.error cause, t) := rfl

omit [Scalar α] in
/-- What comes out well had something to go on with. -/
theorem proceed_eq_ok_iff {β : Type} {t t' : Tracker α} {found : Except Failure β}
    {next : β → Except Failure Unit × Tracker α} :
    t.proceed found next = (.ok (), t') ↔ ∃ b, found = .ok b ∧ next b = (.ok (), t') := by
  cases found <;> simp

omit [Scalar α] in
@[simp] theorem box_reserve (t : Tracker α) (side : Side) : t.reserve.box side = t.box side := by
  cases side <;> rfl

/-- **A push along an axis that the box lacks fails, and only makes room on the stack.** -/
theorem push_of_ge {t : Tracker α} {side : Side} {half : Half} {cut : Cut α}
    (h : (t.box side).dims ≤ cut.axis) :
    t.push side half cut =
      (.error (.indexOutOfRange (t.box side).dims cut.axis), t.reserve) := by
  simp [push, Box.interval_of_ge h]

/-- A push in the Chebyshev norm holds the bounds of the narrowed boxes. -/
theorem push_of_chebyshev {t : Tracker α} {side : Side} {half : Half} {cut : Cut α}
    {interval : Interval α} {bounds : Bounds α} (hn : t.norm = .chebyshev)
    (hi : (t.box side).interval cut.axis = .ok interval)
    (hb : t.space.chebyshevBounds (t.narrow side half cut).first (t.narrow side half cut).second
      = .ok bounds) :
    t.push side half cut =
      (.ok (), { (t.reserve.save side cut.axis interval).narrow side half cut with bounds }) := by
  have hn' : (t.reserve.save side cut.axis interval).norm = .chebyshev := hn
  cases side <;>
  · simp only [push, box_reserve, hi, proceed_ok, hn', narrowAndMeasure]
    simp only [narrow, mapBox] at hb
    simp only [narrow, mapBox, save, reserve, hb, proceed_ok]

/-- A push in any other norm takes out what the axis contributed and adds what it now does. -/
theorem push_of_ne_chebyshev {t : Tracker α} {side : Side} {half : Half} {cut : Cut α}
    {interval : Interval α} {before after : Bounds α} (hn : t.norm ≠ .chebyshev)
    (hi : (t.box side).interval cut.axis = .ok interval) (hb : t.share cut.axis = .ok before)
    (ha : (t.narrow side half cut).share cut.axis = .ok after) :
    t.push side half cut =
      (.ok (), { (t.reserve.save side cut.axis interval).narrow side half cut with
                 bounds := t.bounds - before + after }) := by
  have hp : t.push side half cut =
      (t.reserve.save side cut.axis interval).narrowAndCorrect side half cut := by
    simp only [push, box_reserve, hi, proceed_ok]
    split
    · next h => exact absurd h hn
    · rfl
  have hb' : (t.reserve.save side cut.axis interval).share cut.axis = .ok before := hb
  rw [hp, narrowAndCorrect, hb', proceed_ok]
  cases side <;>
  · simp only [narrow, mapBox, share] at ha
    simp only [narrow, mapBox, share, save, reserve, ha, proceed_ok]

omit [Scalar α] in
/-- Popping a saved and narrowed state gives the state before, whatever became of the bounds. -/
theorem tryPop_narrow_save {t : Tracker α} {side : Side} {half : Half} {cut : Cut α}
    {interval : Interval α} (bounds : Bounds α)
    (hi : (t.box side).interval cut.axis = .ok interval) :
    ({ (t.save side cut.axis interval).narrow side half cut with bounds } : Tracker α).tryPop
      = .ok t := by
  cases side <;>
  · simp only [box] at hi
    simp [tryPop, narrow, save, mapBox, restore, FrameStack.push, Box.setInterval_narrow hi]

/-- **A pop undoes a push**, apart from the room that the push made on the stack. -/
theorem tryPop_of_push {t t' : Tracker α} {side : Side} {half : Half} {cut : Cut α}
    (h : t.push side half cut = (.ok (), t')) : t'.tryPop = .ok t.reserve := by
  obtain ⟨interval, hi, h⟩ := proceed_eq_ok_iff.mp h
  dsimp only at h
  split at h
  · obtain ⟨bounds, -, h⟩ := proceed_eq_ok_iff.mp h
    rw [← (Prod.mk.inj h).2]
    exact tryPop_narrow_save bounds hi
  · obtain ⟨before, -, h⟩ := proceed_eq_ok_iff.mp h
    obtain ⟨after, -, h⟩ := proceed_eq_ok_iff.mp h
    rw [← (Prod.mk.inj h).2, ← tryPop_narrow_save (t.bounds - before + after) hi]
    cases side <;> rfl

end Tracker

end MinkowskiBounds
