/-!
# Binary floating point numbers of 64 bits

A finite number of this format is a whole number of *units* of `2 ^ -1074`, the least positive
one.  So a finite number is a sign and a count of units, and everything about it is arithmetic
of natural numbers: the exact result of an operation is a fraction of units, and one function,
`roundUnits`, brings it back to a count that has at most 53 significant binary digits.

Nothing here is opaque: an operation can be evaluated by the kernel, and its laws are laws of
`Nat` and `Int`.
-/

namespace LiveForm

/-! ## Counts of units -/

/-- A count of units that the format can hold: below `2 ^ 1024`, and a multiple of the weight of
its 53rd binary digit from the top. -/
def Representable (units : Nat) : Prop :=
  units < Nat.pow 2 2098 ∧ units % Nat.pow 2 (units.log2 - 52) = 0

instance (units : Nat) : Decidable (Representable units) :=
  inferInstanceAs (Decidable (_ ∧ _))

/-- The nearest natural number to `n / d`; a tie goes to the even neighbour. -/
def roundDiv (n d : Nat) : Nat :=
  let q := n / d
  let r := n % d
  if 2 * r < d then q
  else if d < 2 * r then q + 1
  else if q % 2 = 0 then q
  else q + 1

/-- The nearest count of units to `n / d` with at most 53 significant binary digits, whatever its
size; a tie goes to the even neighbour. -/
def roundUnits (n d : Nat) : Nat :=
  let weight := Nat.pow 2 ((n / d).log2 - 52)
  roundDiv n (d * weight) * weight

/-- A number of the format: not a number, an infinity, or a signed count of units.  Zero has two
signs, and there is one value "not a number". -/
inductive Binary64 where
  | nan
  | infinite (negative : Bool)
  | finite (negative : Bool) (units : Nat) (representable : Representable units)
  deriving DecidableEq

namespace Binary64

/-- One, in units. -/
def one : Nat := Nat.pow 2 1074

theorem one_pos : 0 < one := by
  have pos (k : Nat) : 0 < Nat.pow 2 k := Nat.two_pow_pos k
  unfold one
  apply pos

/-- The number with this sign and this count of units, or the infinity of that sign when the
count is out of range. -/
def ofUnits (negative : Bool) (units : Nat) : Binary64 :=
  if h : Representable units then .finite negative units h else .infinite negative

/-- The number nearest to `± n / d`. -/
def ofRatio (negative : Bool) (n d : Nat) : Binary64 :=
  ofUnits negative (roundUnits (n * one) d)

/-- Zero, positive. -/
def zero : Binary64 := ofUnits false 0

instance : Inhabited Binary64 := ⟨zero⟩

/-- The number nearest to an integer, an infinity if it is out of range. -/
def ofInt (i : Int) : Binary64 :=
  ofRatio (decide (i < 0)) i.natAbs 1

instance (n : Nat) : OfNat Binary64 n := ⟨ofInt n⟩

/-! ## Classes of numbers -/

/-- Neither infinite nor "not a number". -/
def isFinite : Binary64 → Bool
  | finite .. => true
  | _ => false

def isNaN : Binary64 → Bool
  | nan => true
  | _ => false

def isInfinite : Binary64 → Bool
  | infinite _ => true
  | _ => false

/-- The sign bit; "not a number" counts as positive. -/
def isNegative : Binary64 → Bool
  | nan => false
  | infinite negative => negative
  | finite negative _ _ => negative

/-- Zero of either sign. -/
def isZero : Binary64 → Bool
  | finite _ units _ => units == 0
  | _ => false

/-- The exact value as a signed count of units; only of use for a finite number. -/
def signedUnits : Binary64 → Int
  | finite negative units _ => if negative then -units else units
  | _ => 0

/-- A finite number without a fraction part. -/
def isInteger : Binary64 → Bool
  | finite _ units _ => units % one == 0
  | _ => false

/-! ## Order -/

/-- Equality of numbers: both zeros are equal, and "not a number" equals nothing. -/
def eqv : Binary64 → Binary64 → Bool
  | nan, _ => false
  | _, nan => false
  | infinite s, infinite t => s == t
  | infinite _, finite .. => false
  | finite .., infinite _ => false
  | x@(finite ..), y@(finite ..) => x.signedUnits == y.signedUnits

/-- Strictly below; false when one side is not a number. -/
def lt : Binary64 → Binary64 → Bool
  | nan, _ => false
  | _, nan => false
  | infinite s, infinite t => s && !t
  | infinite s, finite .. => s
  | finite .., infinite t => !t
  | x@(finite ..), y@(finite ..) => decide (x.signedUnits < y.signedUnits)

/-- Below or equal; false when one side is not a number. -/
def le (x y : Binary64) : Bool := x.lt y || x.eqv y

instance : LT Binary64 := ⟨fun x y => x.lt y = true⟩
instance : LE Binary64 := ⟨fun x y => x.le y = true⟩
instance (x y : Binary64) : Decidable (x < y) := inferInstanceAs (Decidable (_ = _))
instance (x y : Binary64) : Decidable (x ≤ y) := inferInstanceAs (Decidable (_ = _))

/-- At least a natural number, which need not be a number of the format itself. -/
def isAtLeast (x : Binary64) (n : Nat) : Bool :=
  match x with
  | nan => false
  | infinite negative => !negative
  | finite .. => (n * one : Nat) ≤ x.signedUnits

/-- The first of two numbers, unless the second is greater. -/
def max (x y : Binary64) : Binary64 := if x < y then y else x

/-! ## Arithmetic, rounded once -/

/-- The number nearest to a signed count of units; an exact zero is positive. -/
def ofSignedUnits (i : Int) : Binary64 :=
  ofUnits (decide (i < 0)) (roundUnits i.natAbs 1)

def neg : Binary64 → Binary64
  | nan => nan
  | infinite s => infinite !s
  | finite s u h => finite (!s) u h

def abs : Binary64 → Binary64
  | nan => nan
  | infinite _ => infinite false
  | finite _ u h => finite false u h

/-- The magnitude of the first with the sign of the second. -/
def copySign (x y : Binary64) : Binary64 :=
  if y.isNegative then neg x.abs else x.abs

/-- The sum of two zeros is negative only if both are. -/
def add : Binary64 → Binary64 → Binary64
  | nan, _ => nan
  | _, nan => nan
  | infinite s, infinite t => if s == t then infinite s else nan
  | infinite s, finite .. => infinite s
  | finite .., infinite t => infinite t
  | x@(finite s _ _), y@(finite t _ _) =>
    let sum := x.signedUnits + y.signedUnits
    if sum = 0 then ofUnits (s && t) 0 else ofSignedUnits sum

def sub (x y : Binary64) : Binary64 := add x y.neg

/-- An infinity times zero is not a number. -/
def mul : Binary64 → Binary64 → Binary64
  | nan, _ => nan
  | _, nan => nan
  | infinite s, infinite t => infinite (s != t)
  | infinite s, finite t u _ => if u = 0 then nan else infinite (s != t)
  | finite s u _, infinite t => if u = 0 then nan else infinite (s != t)
  | finite s u _, finite t v _ => ofUnits (s != t) (roundUnits (u * v) one)

/-- A quotient by zero is an infinity, and zero by zero is not a number. -/
def div : Binary64 → Binary64 → Binary64
  | nan, _ => nan
  | _, nan => nan
  | infinite _, infinite _ => nan
  | infinite s, finite t _ _ => infinite (s != t)
  | finite s _ _, infinite t => ofUnits (s != t) 0
  | finite s u _, finite t v _ =>
    if v = 0 then (if u = 0 then nan else infinite (s != t))
    else ofUnits (s != t) (roundUnits (u * one) v)

/-- The remainder of the quotient cut toward zero, with the sign of the dividend: exact.  It is
undefined for an infinite dividend and for a zero divisor. -/
def mod? : Binary64 → Binary64 → Option Binary64
  | nan, _ => some nan
  | infinite _, nan => some nan
  | finite .., nan => some nan
  | infinite _, _ => none
  | x@(finite ..), infinite _ => some x
  | finite s u _, finite _ v _ => if v = 0 then none else some (ofUnits s (u % v))

instance : Add Binary64 := ⟨add⟩
instance : Sub Binary64 := ⟨sub⟩
instance : Mul Binary64 := ⟨mul⟩
instance : Div Binary64 := ⟨div⟩
instance : Neg Binary64 := ⟨neg⟩

/-! ## Integers near a number -/

/-- The greatest integer not above a finite number. -/
def floor? (x : Binary64) : Option Int :=
  if x.isFinite then some (x.signedUnits.fdiv one) else none

/-- The least integer not below a finite number. -/
def ceil? (x : Binary64) : Option Int :=
  if x.isFinite then some (-(-x.signedUnits).fdiv one) else none

/-- The integer part of a finite number. -/
def truncate? (x : Binary64) : Option Int :=
  if x.isFinite then some (x.signedUnits.tdiv one) else none

/-- The integer nearest to a finite number; a tie goes to the even one. -/
def nearest? : Binary64 → Option Int
  | finite negative units _ =>
    let n : Int := roundDiv units one
    some (if negative then -n else n)
  | _ => none

end Binary64

end LiveForm
