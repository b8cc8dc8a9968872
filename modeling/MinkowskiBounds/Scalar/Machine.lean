import MinkowskiBounds.Scalar

/-!
# Machine numbers as scalars

Binary floating point in double and in single precision. Each operation rounds once to the nearest
representable number, and `round` takes halves away from zero.
-/

namespace MinkowskiBounds

instance : Scalar Float where
  zero := 0
  one := 1
  infinity := 1 / 0
  abs := Float.abs
  round := Float.round
  sqrt := Float.sqrt
  pow := Float.pow
  decideLT := fun a b => inferInstanceAs (Decidable (a < b))
  decideLE := fun a b => inferInstanceAs (Decidable (a ≤ b))

instance : Scalar Float32 where
  zero := 0
  one := 1
  infinity := 1 / 0
  abs := Float32.abs
  round := Float32.round
  sqrt := Float32.sqrt
  pow := Float32.pow
  decideLT := fun a b => inferInstanceAs (Decidable (a < b))
  decideLE := fun a b => inferInstanceAs (Decidable (a ≤ b))

end MinkowskiBounds
