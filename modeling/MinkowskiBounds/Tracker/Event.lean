import MinkowskiBounds.Failure
import MinkowskiBounds.Interval

/-!
# Events

What a tracker reports while it is built and driven, for whoever watches it work.
-/

namespace MinkowskiBounds

/-- How much an event matters. -/
inductive Level where
  | trace
  | debug
  | warn
deriving DecidableEq, Repr

/-- Something that a tracker reports. -/
inductive Event (α : Type) where
  /-- A tracker is about to be built for boxes of which the first has this many axes. -/
  | building (dims : Nat)
  /-- The bounds between the whole boxes are known. -/
  | initialBounds (bounds : Bounds α)
  /-- The boxes have different numbers of axes. -/
  | dimensionMismatch (first second : Nat)
  /-- The space cannot measure the boxes. -/
  | unmeasurable (cause : Failure)
  /-- The stack gets a new capacity. -/
  | resizing (oldCapacity newCapacity : Nat)
deriving Repr

namespace Event

variable {α : Type}

/-- How much an event matters. -/
def level : Event α → Level
  | .building _ => .trace
  | .initialBounds _ => .trace
  | .dimensionMismatch _ _ => .warn
  | .unmeasurable _ => .warn
  | .resizing _ _ => .debug

/-- The wording of an event; for `building` it is the name of the stretch of work that begins. -/
def text : Event α → String
  | .building _ => "rect_rect_tracker"
  | .initialBounds _ => "initial bounds"
  | .dimensionMismatch _ _ => "rect1 and rect2 have different dimensions"
  | .unmeasurable _ => "strategy cannot measure these rectangles"
  | .resizing _ _ => "resizing tracker stack"

end Event

/-- The wording of a level. -/
def Level.text : Level → String
  | .trace => "TRACE"
  | .debug => "DEBUG"
  | .warn => "WARN"

end MinkowskiBounds
