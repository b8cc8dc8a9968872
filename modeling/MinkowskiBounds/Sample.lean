import MinkowskiBounds.Box
import MinkowskiBounds.Scalar.Machine

/-!
# Sample points and boxes

Random points and boxes from a stream of 64-bit words: draw number `k` of the stream is `words k`.
-/

namespace MinkowskiBounds.Sample

/-- A number in `[0, 1)` from the upper 53 bits of a word. -/
def unit (word : UInt64) : Float := (word >>> 11).toFloat / 9007199254740992

/-- A point with coordinates in `[0, scale)`, from the draws `start`, `start + 1` and so on. -/
def point (words : Nat → UInt64) (start dims : Nat) (scale : Float) : List Float :=
  (List.range dims).map fun k => unit (words (start + k)) * scale

/-- The box around two points drawn one after the other. -/
def box (words : Nat → UInt64) (dims : Nat) (scale : Float) : Box Float :=
  .bounding [point words 0 dims scale, point words dims dims scale]

end MinkowskiBounds.Sample
