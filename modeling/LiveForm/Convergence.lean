import LiveForm.Value.Basic

/-!
# Convergence

When a node is computed again and again, its newest value is judged against the ones before it:
it *converged* if it repeats the previous value within the tolerances, and it *oscillates* if the
last values go back and forth between two.  Only a bounded number of values is remembered for
each node.
-/

namespace LiveForm

/-- The judgement on a new value. -/
inductive Verdict where
  | changed
  | converged
  | oscillating
  deriving DecidableEq, Repr

def Verdict.word : Verdict → String
  | changed => "changed"
  | converged => "converged"
  | oscillating => "oscillating"

namespace Value

/-- Nothing, or a text of blanks. -/
def isBlank : Value → Bool
  | absent => true
  | text s => Text.allBlank s
  | _ => false

/-- The number that a numeric value is; a flag is none. -/
def numeric? : Value → Option Binary64
  | integer i => some (.ofInt i)
  | number x => some x
  | _ => none

/-- How far two numeric values are apart. -/
inductive Distance where
  /-- Integers are subtracted exactly. -/
  | exact (n : Nat)
  | rounded (x : Binary64)

def Distance.within (limit : Binary64) : Distance → Bool
  | exact n => limit.isAtLeast n
  | rounded x => x ≤ limit

/-- The distance of two numeric values. -/
def distance? : Value → Value → Option Distance
  | integer i, integer j => some (.exact (i - j).natAbs)
  | v, w => do some (.rounded ((← v.numeric?) - (← w.numeric?)).abs)

/-- The number that a value counts as beside numbers: a flag is zero or one. -/
def counted? : Value → Option Binary64
  | flag b => some (if b then 1 else 0)
  | v => v.numeric?

/-- Equality of values, of numbers whatever kind they are and of moments whatever their clocks. -/
def same (v w : Value) : Bool :=
  match v, w with
  | moment m, moment m' => m.same m'
  | v, w =>
    match v.counted?, w.counted? with
    | some x, some y => x.eqv y
    | none, none => v == w
    | _, _ => false

end Value

/-- How close two numbers must be to count as equal. -/
structure Tolerances where
  absolute : Binary64
  /-- Relative to the larger magnitude. -/
  relative : Binary64

/-- The two values are the same within the tolerances.  A blank value is the same as a blank one
only: "no input yet" is not zero. -/
def Tolerances.converged (t : Tolerances) (v w : Value) : Bool :=
  if v.isBlank || w.isBlank then v.isBlank && w.isBlank
  else
    match v.distance? w, v.numeric?, w.numeric? with
    | some d, some x, some y =>
      d.within t.absolute || d.within (t.relative * x.abs.max y.abs)
    | _, _, _ => v.same w

/-- The comparison can be made: it makes no integer a number that would be out of range. -/
def Tolerances.compares (t : Tolerances) : Value → Value → Bool
  | .integer i, .integer j =>
    t.absolute.isAtLeast (i - j).natAbs || (Binary64.ofInt (max i.natAbs j.natAbs)).isFinite
  | .integer i, .number _ | .number _, .integer i => (Binary64.ofInt i).isFinite
  | _, _ => true

/-- Whether the values are the same within the tolerances, if they can be compared. -/
def Tolerances.compare? (t : Tolerances) (v w : Value) : Option Bool :=
  if t.compares v w then some (t.converged v w) else none

/-- The last values of each node, the newest first. -/
structure ConvergenceDetector where
  tolerances : Tolerances
  historySize : Nat
  histories : List (String × List Value) := []

namespace ConvergenceDetector

/-- The most values that can be remembered for a node. -/
def maxHistory : Nat := Nat.pow 2 63 - 1

/-- So many values can be remembered as are to be. -/
def canRemember (d : ConvergenceDetector) : Bool := d.historySize ≤ maxHistory

/-- The values remembered for a node, the newest first. -/
def recent (d : ConvergenceDetector) (node : String) : List Value :=
  (d.histories.lookup node).getD []

/-- The values remembered for a node, the oldest first. -/
def history (d : ConvergenceDetector) (node : String) : List Value := (d.recent node).reverse

/-- Lets go of the values of a node. -/
def forget (d : ConvergenceDetector) (node : String) : ConvergenceDetector :=
  { d with histories := d.histories.filter (·.1 != node) }

/-- Lets go of all values. -/
def reset (d : ConvergenceDetector) : ConvergenceDetector := { d with histories := [] }

/-- The newest values go back and forth.  After an update that a linked node caused, it is enough
that the value before the last comes back: a binding in two directions bounces once before it
settles. -/
def oscillates? (t : Tolerances) (fromPeer : Bool) : List Value → Option Bool
  | v :: _ :: w :: [] => if fromPeer then t.compare? v w else some false
  | v :: v' :: w :: w' :: _ => do
    if ← t.compare? v w then
      if fromPeer then some true else t.compare? v' w'
    else some false
  | _ => some false

/-- The judgement on a value of a node, if all comparisons can be made that it takes. -/
def verdict? (d : ConvergenceDetector) (node : String) (v : Value) (fromPeer : Bool) :
    Option Verdict := do
  let before := d.recent node
  let repeats ← match before with
    | [] => some false
    | previous :: _ => d.tolerances.compare? v previous
  if repeats then return .converged
  if ← oscillates? d.tolerances fromPeer ((v :: before).take d.historySize) then
    return .oscillating
  return .changed

/-- Remembers a value for a node. -/
def remember (d : ConvergenceDetector) (node : String) (v : Value) : ConvergenceDetector :=
  { d with
    histories := (node, (v :: d.recent node).take d.historySize) :: (d.forget node).histories }

/-- Remembers a value that an evaluation gave, and judges it: such values can all be compared. -/
def observe (d : ConvergenceDetector) (node : String) (v : Value) (fromPeer : Bool) :
    Verdict × ConvergenceDetector :=
  ((d.verdict? node v fromPeer).getD .changed, d.remember node v)

/-! ## Values of any kind -/

/-- Why a value is not judged. -/
inductive JudgeError where
  /-- More values were to be remembered than can be. -/
  | historyTooLong
  /-- An integer out of the range of numbers was to be compared. -/
  | outOfRange
  deriving DecidableEq, Repr

/-- Remembers a value for a node and judges it.  A value that cannot be compared is remembered all
the same. -/
def tryObserve (d : ConvergenceDetector) (node : String) (v : Value) (fromPeer : Bool) :
    Except JudgeError Verdict × ConvergenceDetector :=
  if d.canRemember then
    (match d.verdict? node v fromPeer with
      | some verdict => .ok verdict
      | none => .error .outOfRange, d.remember node v)
  else (.error .historyTooLong, d)

/-- Remembers a value for a node and says whether nothing need be passed on. -/
def isStable? (d : ConvergenceDetector) (node : String) (v : Value) (fromPeer : Bool) :
    Except JudgeError Bool × ConvergenceDetector :=
  let (verdict, d) := d.tryObserve node v fromPeer
  (verdict.map (· != .changed), d)

end ConvergenceDetector

end LiveForm
