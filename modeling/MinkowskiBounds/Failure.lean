/-!
# Failures

Why a box, a torus or a tracker could not be made, or an operation on one could not be carried out,
each with its wording.
-/

namespace MinkowskiBounds

/-- What can go wrong. -/
inductive Failure where
  /-- The two boxes to be tracked have different numbers of axes. -/
  | dimensionMismatch (first second : Nat)
  /-- The torus closes `got` axes, the boxes have `expected`. -/
  | torusMismatch (expected got : Nat)
  /-- The period of this axis is not above zero. -/
  | periodNotPositive (axis : Nat)
  /-- This many sizes cannot be periods followed by as many half periods. -/
  | oddSizeCount (count : Nat)
  /-- There is no push left to undo. -/
  | underflow
  /-- An undo that the caller held to be safe found no push to undo. -/
  | unmatchedPop
  /-- A list of `size` entries was read at `index`. -/
  | indexOutOfRange (size index : Nat)
  /-- A box was given `lows` lower and `highs` upper ends. -/
  | unequalEnds (lows highs : Nat)
  /-- A box without axes cannot be halved. -/
  | noAxisToHalve
deriving DecidableEq, Repr

/-- The wording of a failure. -/
def Failure.message : Failure → String
  | .dimensionMismatch first second =>
    s!"rect1 and rect2 have different dimensions: {first} vs {second}"
  | .torusMismatch expected got =>
    s!"periodic box has {got} axes but the rectangles have {expected}"
  | .periodNotPositive axis => s!"box size along axis {axis} must be positive"
  | .oddSizeCount count => s!"concatenated box array has odd length {count}"
  | .underflow => "bad stack size: pop without matching push"
  | .unmatchedPop => "bad stack size: pop without matching push. This error should never occur."
  | .indexOutOfRange size index =>
    s!"index out of bounds: the len is {size} but the index is {index}"
  | .unequalEnds lows highs =>
    "assertion `left == right` failed: mins and maxes must have the same length\n" ++
      s!"  left: {lows}\n right: {highs}"
  | .noAxisToHalve => "attempt to calculate the remainder with a divisor of zero"

end MinkowskiBounds
