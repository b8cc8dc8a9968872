import MinkowskiBounds.Box.Split
import MinkowskiBounds.Sample
import MinkowskiBounds.Tracker.Family
import MinkowskiBounds.Proofs.Scalar.Extended
import MinkowskiBounds.Proofs.Scalar.Rounded
import MinkowskiBounds.Proofs.Scalar.Growing
import MinkowskiBounds.Proofs.Scalar.Real
import MinkowskiBounds.Proofs.Norm.Monotone
import MinkowskiBounds.Proofs.Norm.Limit
import MinkowskiBounds.Proofs.Norm.Raise
import MinkowskiBounds.Proofs.Axis.Extremes
import MinkowskiBounds.Proofs.Space.Numbers
import MinkowskiBounds.Proofs.Space.Extremes
import MinkowskiBounds.Proofs.Space.Far
import MinkowskiBounds.Proofs.Space.Cells
import MinkowskiBounds.Proofs.Torus.Images
import MinkowskiBounds.Proofs.Torus.Unwrapped
import MinkowskiBounds.Proofs.Space.Symmetry
import MinkowskiBounds.Proofs.Box.Distances
import MinkowskiBounds.Proofs.Box.Bounding
import MinkowskiBounds.Proofs.Box.Halves
import MinkowskiBounds.Proofs.Box.Dissection
import MinkowskiBounds.Proofs.Torus.Cap
import MinkowskiBounds.Proofs.Tracker.Step
import MinkowskiBounds.Proofs.Tracker.Rollback
import MinkowskiBounds.Proofs.Tracker.Fresh
import MinkowskiBounds.Proofs.Tracker.Extremes
import MinkowskiBounds.Proofs.Tracker.Halves
import MinkowskiBounds.Proofs.Tracker.Taken
import MinkowskiBounds.Proofs.Tracker.Sound
import MinkowskiBounds.Proofs.Tracker.Failures
import MinkowskiBounds.Proofs.Tracker.Forks
import MinkowskiBounds.Proofs.Tracker.Spaces
import MinkowskiBounds.Proofs.Tracker.Symmetry
import MinkowskiBounds.Proofs.Tracker.Distances
import MinkowskiBounds.Proofs.Tracker.Rounding
import MinkowskiBounds.Proofs.Tracker.Cells
import MinkowskiBounds.Proofs.Tracker.Limit
import MinkowskiBounds.Proofs.Tracker.Tolerance
import MinkowskiBounds.Proofs.Tracker.Capacity
import MinkowskiBounds.Proofs.Tracker.Halvings
