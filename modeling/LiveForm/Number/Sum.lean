import LiveForm.Number.Binary64

/-!
# Exact sums

The sum of a list of numbers does not depend on cancellation: it is held as a row of *partial sums*,
and what the rounding of one of them loses becomes a partial sum of its own.  At the end they are
added exactly and rounded once.  It fails when a partial sum leaves the range of the format, though
the whole sum may lie in it, and when both infinities occur.
-/

namespace LiveForm

/-- Why a list has no sum. -/
inductive SumError where
  /-- A partial sum is more than the format holds. -/
  | overflow
  /-- Both infinities are among the terms. -/
  | oppositeInfinities
  deriving DecidableEq, Repr

namespace Binary64

/-- Adds a term to a row of partial sums, all in units and the least one first.  Each of them takes
the term and is rounded; the rounded sum is carried on to the next one, and what rounding lost stays
in its place unless it is nothing.  There is no answer if a rounded sum is out of range. -/
def carry (x : Int) : List Int → Option (List Int)
  | [] => some (if x = 0 then [] else [x])
  | y :: ys =>
    let high := ofSignedUnits (x + y)
    let low := x + y - high.signedUnits
    if high.isFinite then
      (carry high.signedUnits ys).map fun zs => if low = 0 then zs else low :: zs
    else none

/-- What is known after a part of the terms. -/
structure RunningSum where
  /-- The partial sums of the finite terms since the last one that is not finite. -/
  partials : List Int := []
  /-- The sum of the infinite terms. -/
  infinities : Binary64 := zero
  /-- The sum of the terms that are not finite. -/
  special : Binary64 := zero

/-- The running sum with one more term. -/
def RunningSum.add (s : RunningSum) (x : Binary64) : Except SumError RunningSum :=
  if x.isFinite then
    match carry x.signedUnits s.partials with
    | some partials => .ok { s with partials }
    | none => .error .overflow
  else
    .ok {
      infinities := if x.isInfinite then s.infinities + x else s.infinities
      special := s.special + x }

/-- The sum of the numbers, rounded once. -/
def sum (xs : List Binary64) : Except SumError Binary64 := do
  let s ← xs.foldlM RunningSum.add {}
  if s.special.isFinite then .ok (ofSignedUnits (s.partials.foldl (· + ·) 0))
  else if s.infinities.isNaN then .error .oppositeInfinities
  else .ok s.special

end Binary64

end LiveForm
